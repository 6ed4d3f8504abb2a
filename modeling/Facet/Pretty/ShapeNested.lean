import Facet.Lib.Worklist
import Facet.Pretty.ShapeSpans

/-!
# Nested type definitions

The writers print the definition of a type and then those of the types nested in it. They take
shapes from a stack; a printed set keeps a type from being printed twice.
-/

namespace Facet.Pretty

open Relation ShapeSpans

variable {ι : Type}

inductive Definition (ι : Type)
  | struct (ty : StructType ι)
  | enum (ty : EnumType ι)

/-- The structs and enums that are printed; container types are inline. -/
def definition (shape : Shape ι) : Option (Definition ι) :=
  match shape.def with
  | .map _ _ | .list _ | .option _ | .array _ _ => none
  | _ =>
    match shape.ty with
    | .user (.struct ty) => some (.struct ty)
    | .user (.enum ty) => some (.enum ty)
    | _ => none

/-- The structural view that the definition was taken from. -/
def Definition.ty : Definition ι → Ty ι
  | .struct ty => .user (.struct ty)
  | .enum ty => .user (.enum ty)

theorem ty_eq_of_definition {shape : Shape ι} {d : Definition ι} (h : definition shape = some d) :
    shape.ty = d.ty := by
  unfold definition at h
  cases hdef : shape.def with
  | list _ | array _ _ | option _ | map _ _ => simp [hdef] at h
  | _ =>
    simp only [hdef] at h
    split at h <;> cases h <;> assumption

/-- The fields, those of an enum in the order of its variants. -/
def Definition.fields : Definition ι → List (Field ι)
  | .struct ty => ty.fields
  | .enum ty => ty.variants.flatMap fun variant => variant.data.fields

section

variable (shapes : Shapes ι)

def collectFromShape : ℕ → ι → Option (List ι)
  | 0, _ => none
  | depth + 1, s =>
    match (shapes s).def with
    | .list t | .array t _ | .option t => collectFromShape depth t
    | .map k v => do return (← collectFromShape depth k) ++ (← collectFromShape depth v)
    | _ =>
      match (shapes s).ty with
      | .user (.struct _) | .user (.enum _) => some [s]
      | _ => some []

/-- What the collection of types looks into. -/
def containerArguments (s : ι) : List ι :=
  match (shapes s).def with
  | .list t | .array t _ | .option t => [t]
  | .map k v => [k, v]
  | _ => []

def collectNestedTypes (depth : ℕ) (fields : List (Field ι)) : Option (List ι) :=
  (fields.mapM fun field => collectFromShape shapes depth field.shape).map List.flatten

/-- The type has a definition of its own. -/
def Defines (s : ι) : Prop := (definition (shapes s)).isSome

/-- The definition `t` is that of a type in a field of `s`, if need be within containers. -/
def Nested (s t : ι) : Prop :=
  ∃ d, definition (shapes s) = some d ∧ ∃ field ∈ d.fields,
    ReflTransGen (Descent.Refers (containerArguments shapes)) field.shape t ∧ Defines shapes t

end

/-- What the writers differ in. -/
structure ShapeWriter (ι σ : Type) where
  paint : Paint
  /-- The separator between definitions. -/
  separate : σ → σ
  define : (ι → String) → Shape ι → Definition ι → σ → σ
  /-- Whether nested types are collected. -/
  expand : Bool

section

variable {σ : Type} [DecidableEq ι] (shapes : Shapes ι) (w : ShapeWriter ι σ) (depth : ℕ)

/-- Prints a definition and collects the types nested in it. -/
def printDefinition (s : ι) (d : Definition ι) (out : σ) : Option (List ι × σ) := do
  let name := writeTypeNameColored shapes w.paint depth
  if d.fields.all fun field => (name field.shape).isSome then
    let nested ← if w.expand then collectNestedTypes shapes depth d.fields else some []
    return (nested, w.define (fun s => (name s).getD "") (shapes s) d out)
  else none

/-- The loop of the writers: the queue is taken from its end, which comes first here. -/
def formatQueue : ℕ → List ι → List ι → σ → Option (List ι × σ)
  | 0, _, _, _ => none
  | _ + 1, [], printed, out => some (printed, out)
  | fuel + 1, current :: queue, printed, out =>
    if current ∈ printed then formatQueue fuel queue printed out
    else
      let out := if printed.isEmpty then out else w.separate out
      match definition (shapes current) with
      | none => formatQueue fuel queue printed out
      | some d =>
        match printDefinition shapes w depth current d out with
        | none => none
        | some (nested, out) => formatQueue fuel (nested.reverse ++ queue) (printed ++ [current]) out

end

section

variable (config : ShapeFormatConfig) (paint : Paint)

/-- The writer with colors collects nested types whatever the configuration says. -/
def coloredWriter : ShapeWriter ι String where
  paint := paint
  separate out := out ++ "\n\n"
  define typeName shape d out :=
    out ++ match d with
      | .struct ty => formatStructColored config paint typeName shape ty
      | .enum ty => formatEnumColored config paint typeName shape ty
  expand := true

def defineWithSpans (typeName : ι → String) (shape : Shape ι) (d : Definition ι) :
    Tracker Unit := do
  setCurrentType (some shape.typeIdentifier)
  (match d with
    | .struct ty => formatStructWithSpans config typeName shape ty
    | .enum ty => formatEnumWithSpans config typeName shape ty)
  setCurrentType none

def spanWriter : ShapeWriter ι SpanTrackingContext where
  paint := plain
  separate ctx := ((ShapeSpans.write "\n\n").run ctx).2
  define typeName shape d ctx := ((defineWithSpans config typeName shape d).run ctx).2
  expand := config.expandNestedTypes

variable [DecidableEq ι] (shapes : Shapes ι) (fuel depth : ℕ) (shape : ι)

/-- The types that are defined, in order, and the text. -/
def formatShapeColoredWithConfig : Option (List ι × String) :=
  formatQueue shapes (coloredWriter config paint) depth fuel [shape] [] ""

def formatShapeWithConfig : Option (List ι × String) :=
  (formatShapeColoredWithConfig config paint shapes fuel depth shape).map fun (order, text) =>
    (order, String.ofList (stripAnsi false text.toList))

def formatShapeWithSpansAndConfig : Option (List ι × SpanTrackingContext) :=
  formatQueue shapes (spanWriter config) depth fuel [shape] [] {}

end

section

variable (shapes : Shapes ι)

/-- What the collection comes to from a shape, by the first step. -/
theorem reaches_iff (s t : ι) :
    ReflTransGen (Descent.Refers (containerArguments shapes)) s t ∧ Defines shapes t ↔
      (s = t ∧ Defines shapes t) ∨ ∃ u ∈ containerArguments shapes s,
        ReflTransGen (Descent.Refers (containerArguments shapes)) u t ∧ Defines shapes t := by
  rw [ReflTransGen.cases_head_iff]
  constructor
  · rintro ⟨rfl | ⟨u, hu, hut⟩, ht⟩
    · exact .inl ⟨rfl, ht⟩
    · exact .inr ⟨u, hu, hut, ht⟩
  · rintro (⟨rfl, ht⟩ | ⟨u, hu, hut, ht⟩)
    · exact ⟨.inl rfl, ht⟩
    · exact ⟨.inr ⟨u, hu, hut⟩, ht⟩

/-- A shape is a container, or it is collected if it has a definition. -/
theorem collectFromShape_succ (depth : ℕ) (s : ι) :
    collectFromShape shapes (depth + 1) s =
      if containerArguments shapes s = [] then
        some (if (definition (shapes s)).isSome then [s] else [])
      else ((containerArguments shapes s).mapM (collectFromShape shapes depth)).map List.flatten := by
  rw [collectFromShape, containerArguments, definition]
  cases (shapes s).def with
  | list t => cases h : collectFromShape shapes depth t <;> simp [h]
  | array t n => cases h : collectFromShape shapes depth t <;> simp [h]
  | option t => cases h : collectFromShape shapes depth t <;> simp [h]
  | map k v =>
    cases h : collectFromShape shapes depth k <;> cases h' : collectFromShape shapes depth v <;>
      simp [h, h']
  | _ =>
    cases (shapes s).ty with
    | user ty => cases ty <;> rfl
    | _ => rfl

theorem containerArguments_eq_nil {s : ι} (h : Defines shapes s) :
    containerArguments shapes s = [] := by
  unfold Defines definition at h
  unfold containerArguments
  cases hdef : (shapes s).def with
  | _ => simp [hdef] at h ⊢

theorem mem_of_mapM_eq_some {α β : Type} {f : α → Option β} {xs : List α} {ys : List β}
    (h : xs.mapM f = some ys) (y : β) : y ∈ ys ↔ ∃ x ∈ xs, f x = some y := by
  induction xs generalizing ys with
  | nil =>
    cases h
    simp
  | cons x xs ih =>
    rw [List.mapM_cons] at h
    obtain ⟨z, hz, h⟩ := Option.bind_eq_some_iff.mp h
    obtain ⟨zs, hzs, h⟩ := Option.bind_eq_some_iff.mp h
    cases h
    rw [List.mem_cons, ih hzs]
    simp [hz, eq_comm]

theorem isSome_mapM {α β : Type} {f : α → Option β} {xs : List α} :
    (xs.mapM f).isSome ↔ ∀ x ∈ xs, (f x).isSome := by
  induction xs with
  | nil => simp
  | cons x xs ih =>
    rw [List.mapM_cons, List.forall_mem_cons, ← ih]
    cases f x <;> cases xs.mapM f <;> simp

theorem mem_collectFromShape {depth : ℕ} {s : ι} {collected : List ι}
    (h : collectFromShape shapes depth s = some collected) (t : ι) :
    t ∈ collected ↔
      ReflTransGen (Descent.Refers (containerArguments shapes)) s t ∧ Defines shapes t := by
  induction depth generalizing s collected with
  | zero => cases h
  | succ depth ih =>
    rw [reaches_iff]
    rw [collectFromShape_succ] at h
    split_ifs at h with hargs hdefines
    · cases h
      rw [hargs, List.mem_singleton]
      constructor
      · rintro rfl
        exact .inl ⟨rfl, hdefines⟩
      · rintro (⟨rfl, -⟩ | ⟨u, hu, -⟩)
        · rfl
        · cases hu
    · cases h
      rw [hargs]
      constructor
      · intro ht
        cases ht
      · rintro (⟨rfl, ht⟩ | ⟨u, hu, -⟩)
        · exact absurd ht hdefines
        · cases hu
    · obtain ⟨lists, hlists, rfl⟩ := Option.map_eq_some_iff.mp h
      rw [List.mem_flatten]
      constructor
      · rintro ⟨ts, hts, ht⟩
        obtain ⟨u, hu, hcollect⟩ := (mem_of_mapM_eq_some hlists ts).mp hts
        exact .inr ⟨u, hu, (ih hcollect).mp ht⟩
      · rintro (⟨rfl, ht⟩ | ⟨u, hu, hreach⟩)
        · exact absurd (containerArguments_eq_nil shapes ht) hargs
        · obtain ⟨ts, hts⟩ := Option.isSome_iff_exists.mp
            (isSome_mapM.mp (Option.isSome_of_mem hlists) u hu)
          exact ⟨ts, (mem_of_mapM_eq_some hlists ts).mpr ⟨u, hu, hts⟩, (ih hts).mpr hreach⟩

/-- The arguments of a container are arguments of its name. -/
theorem mem_nameArguments {s t : ι} (h : t ∈ containerArguments shapes s) :
    t ∈ nameArguments shapes s := by
  unfold containerArguments at h
  unfold nameArguments nameForm
  cases hdef : (shapes s).def with
  | list _ | array _ _ | option _ | map _ _ => simpa [hdef, NameForm.arguments] using h
  | _ => simp [hdef] at h

theorem isSome_collectFromShape {paint : Paint} {depth : ℕ} {s : ι}
    (h : (writeTypeNameColored shapes paint depth s).isSome) :
    (collectFromShape shapes depth s).isSome := by
  induction depth generalizing s with
  | zero => cases h
  | succ depth ih =>
    rw [collectFromShape_succ]
    split_ifs
    · rfl
    · rfl
    · rw [Option.isSome_map, isSome_mapM]
      intro t ht
      exact ih ((isSome_writeTypeNameColored_succ shapes paint depth s).mp h t
        (mem_nameArguments shapes ht))

theorem isSome_collectNestedTypes {paint : Paint} {depth : ℕ} {fields : List (Field ι)}
    (h : ∀ field ∈ fields, (writeTypeNameColored shapes paint depth field.shape).isSome) :
    (collectNestedTypes shapes depth fields).isSome := by
  rw [collectNestedTypes, Option.isSome_map, isSome_mapM]
  exact fun field hfield => isSome_collectFromShape shapes (h field hfield)

theorem mem_collectNestedTypes {depth : ℕ} {fields : List (Field ι)} {nested : List ι}
    (h : collectNestedTypes shapes depth fields = some nested) (t : ι) :
    t ∈ nested ↔ ∃ field ∈ fields,
      ReflTransGen (Descent.Refers (containerArguments shapes)) field.shape t ∧
        Defines shapes t := by
  obtain ⟨lists, hlists, rfl⟩ := Option.map_eq_some_iff.mp h
  rw [List.mem_flatten]
  constructor
  · rintro ⟨ts, hts, ht⟩
    obtain ⟨field, hfield, hcollect⟩ := (mem_of_mapM_eq_some hlists ts).mp hts
    exact ⟨field, hfield, (mem_collectFromShape shapes hcollect t).mp ht⟩
  · rintro ⟨field, hfield, hreach⟩
    obtain ⟨ts, hts⟩ := Option.isSome_iff_exists.mp
      (isSome_mapM.mp (Option.isSome_of_mem hlists) field hfield)
    exact ⟨ts, (mem_of_mapM_eq_some hlists ts).mpr ⟨field, hfield, hts⟩,
      (mem_collectFromShape shapes hts t).mpr hreach⟩

end

section

variable {σ : Type} {shapes : Shapes ι} {w : ShapeWriter ι σ} {depth : ℕ}

/-- The names that the writers put into texts. -/
def nameWithin (shapes : Shapes ι) (paint : Paint) (depth : ℕ) (s : ι) : String :=
  (writeTypeNameColored shapes paint depth s).getD ""

/-- The type leads to the definition as far as the writer collects nested types. -/
def Leads (shapes : Shapes ι) (w : ShapeWriter ι σ) (s t : ι) : Prop :=
  w.expand = true ∧ Nested shapes s t

theorem printDefinition_eq (s : ι) (d : Definition ι) (out : σ) :
    printDefinition shapes w depth s d out =
      if d.fields.all fun field => (writeTypeNameColored shapes w.paint depth field.shape).isSome then
        (if w.expand then collectNestedTypes shapes depth d.fields else some []).map fun nested =>
          (nested, w.define (nameWithin shapes w.paint depth) (shapes s) d out)
      else none := by
  unfold printDefinition nameWithin
  cases w.expand with
  | true => cases collectNestedTypes shapes depth d.fields <;> rfl
  | false => rfl

theorem isSome_printDefinition (s : ι) (d : Definition ι) (out : σ) :
    (printDefinition shapes w depth s d out).isSome ↔
      ∀ field ∈ d.fields, (writeTypeNameColored shapes w.paint depth field.shape).isSome := by
  rw [printDefinition_eq, ← List.all_eq_true]
  cases hnames : d.fields.all
      fun field => (writeTypeNameColored shapes w.paint depth field.shape).isSome with
  | false => simp
  | true =>
    have hcollect := isSome_collectNestedTypes shapes (List.all_eq_true.mp hnames)
    cases w.expand with
    | true => simp [hcollect]
    | false => simp

theorem printDefinition_spec {s : ι} {d : Definition ι} {out out' : σ} {nested : List ι}
    (hd : definition (shapes s) = some d)
    (h : printDefinition shapes w depth s d out = some (nested, out')) :
    (∀ t, t ∈ nested ↔ Leads shapes w s t) ∧
      out' = w.define (nameWithin shapes w.paint depth) (shapes s) d out := by
  rw [printDefinition_eq] at h
  split_ifs at h with hnames hexpand
  · obtain ⟨collected, hcollect, heq⟩ := Option.map_eq_some_iff.mp h
    cases heq
    refine ⟨?_, rfl⟩
    intro t
    rw [mem_collectNestedTypes shapes hcollect]
    simp [Leads, hexpand, Nested, hd]
  · cases h
    refine ⟨?_, rfl⟩
    intro t
    simp [Leads, hexpand]

/-- One round of the loop for a type that has a definition. -/
def visit (shapes : Shapes ι) (w : ShapeWriter ι σ) (depth : ℕ) (printed : List ι) (s : ι)
    (out : σ) : Option (List ι × σ) :=
  (definition (shapes s)).bind fun d =>
    printDefinition shapes w depth s d (if printed.isEmpty then out else w.separate out)

theorem follows_visit : Worklist.Follows (Leads shapes w) (visit shapes w depth) := by
  intro printed s out next out' h t
  obtain ⟨d, hd, hprint⟩ := Option.bind_eq_some_iff.mp h
  exact (printDefinition_spec hd hprint).1 t

variable [DecidableEq ι]

/-- As long as only types with definitions wait, the loop is the traversal. -/
theorem formatQueue_eq_run (fuel : ℕ) {queue : List ι} (printed : List ι) (out : σ)
    (hqueue : ∀ s ∈ queue, Defines shapes s) :
    formatQueue shapes w depth fuel queue printed out =
      Worklist.run (visit shapes w depth) fuel queue printed out := by
  induction fuel generalizing queue printed out with
  | zero => rfl
  | succ fuel ih =>
    cases queue with
    | nil => rfl
    | cons s queue =>
      have hrest : ∀ t ∈ queue, Defines shapes t := fun t ht => hqueue t (List.mem_cons_of_mem s ht)
      obtain ⟨d, hd⟩ := Option.isSome_iff_exists.mp (hqueue s List.mem_cons_self)
      rw [formatQueue, Worklist.run, visit, hd]
      split_ifs with hprinted
      · exact ih printed out hrest
      all_goals
        simp only [Option.bind_some]
        cases hprint : printDefinition shapes w depth s d _ with
        | none => rfl
        | some result =>
          obtain ⟨nested, out'⟩ := result
          apply ih
          intro t ht
          rcases List.mem_append.mp ht with ht | ht
          · have hleads := ((printDefinition_spec hd hprint).1 t).mp (List.mem_reverse.mp ht)
            obtain ⟨-, -, -, -, -, -, hdefines⟩ := hleads
            exact hdefines
          · exact hrest t ht

/-- A loop that starts at a type without a definition prints nothing. -/
theorem formatQueue_of_not_defines {s : ι} (h : ¬ Defines shapes s) (fuel : ℕ) (out : σ) :
    formatQueue shapes w depth (fuel + 2) [s] [] out = some ([], out) := by
  have hnone : definition (shapes s) = none := Option.not_isSome_iff_eq_none.mp h
  rw [formatQueue, hnone]
  rfl

theorem eq_nil_of_not_defines {s : ι} (h : ¬ Defines shapes s) {fuel : ℕ} {out out' : σ}
    {order : List ι} (hrun : formatQueue shapes w depth fuel [s] [] out = some (order, out')) :
    order = [] := by
  match fuel with
  | 0 => cases hrun
  | 1 =>
    rw [formatQueue, Option.not_isSome_iff_eq_none.mp h] at hrun
    cases hrun
  | fuel + 2 =>
    rw [formatQueue_of_not_defines h] at hrun
    cases hrun
    rfl

/-- A loop that ends has printed the definitions that its root leads to, each once and the root
first. -/
theorem formatQueue_spec {root : ι} {fuel : ℕ} {out out' : σ} {order : List ι}
    (hroot : Defines shapes root)
    (h : formatQueue shapes w depth fuel [root] [] out = some (order, out')) :
    (∃ rest, order = root :: rest) ∧ order.Nodup ∧
      (∀ s, s ∈ order ↔ ReflTransGen (Leads shapes w) root s) ∧
      Worklist.visitAll (visit shapes w depth) [] order out = some out' := by
  rw [formatQueue_eq_run fuel [] out (List.forall_mem_singleton.mpr hroot)] at h
  have hfirst := Worklist.exists_eq_cons_of_run follows_visit h
  obtain ⟨hinv, rest, horder, hrest⟩ := Worklist.run_spec follows_visit (.start root) h
  rw [List.nil_append] at horder
  rw [← horder] at hrest
  exact ⟨hfirst, hinv.nodup, hinv.mem_iff, hrest⟩

end

section

variable (shapes : Shapes ι)

/-- The names of the types in the definition can be written. -/
def NamesEnd (s : ι) : Prop :=
  ∀ d, definition (shapes s) = some d → ∀ field ∈ d.fields, NameEnds shapes field.shape

variable {shapes} {σ τ : Type} {w : ShapeWriter ι σ} {w' : ShapeWriter ι τ}

theorem isSome_visit {depth : ℕ} {printed : List ι} {s : ι} {out : σ} :
    (visit shapes w depth printed s out).isSome ↔
      ∃ d, definition (shapes s) = some d ∧
        ∀ field ∈ d.fields, (writeTypeNameColored shapes w.paint depth field.shape).isSome := by
  unfold visit
  cases definition (shapes s) with
  | none => simp
  | some d => simp [isSome_printDefinition]

theorem namesEnd_of_visit {depth : ℕ} {printed : List ι} {s : ι} {out : σ}
    (h : (visit shapes w depth printed s out).isSome) : NamesEnd shapes s := by
  obtain ⟨d, hd, hnames⟩ := isSome_visit.mp h
  intro d' hd' field hfield
  rw [hd] at hd'
  cases hd'
  exact (exists_writeTypeNameColored_iff shapes w.paint field.shape).mp ⟨depth, hnames field hfield⟩

theorem defines_of_leads {root s : ι} (hroot : Defines shapes root)
    (h : ReflTransGen (Leads shapes w) root s) : Defines shapes s := by
  cases h with
  | refl => exact hroot
  | tail _ hlast =>
    obtain ⟨-, -, -, -, -, -, hdefines⟩ := hlast
    exact hdefines

theorem isSome_writeTypeNameColored_paint (paint paint' : Paint) (depth : ℕ) (s : ι) :
    (writeTypeNameColored shapes paint depth s).isSome ↔
      (writeTypeNameColored shapes paint' depth s).isSome := by
  induction depth generalizing s with
  | zero => rfl
  | succ depth ih =>
    rw [isSome_writeTypeNameColored_succ, isSome_writeTypeNameColored_succ]
    simp only [ih]

theorem visit_map_fst (hexpand : w.expand = w'.expand) (depth : ℕ) (printed : List ι) (s : ι)
    (out : σ) (out' : τ) :
    (visit shapes w depth printed s out).map Prod.fst =
      (visit shapes w' depth printed s out').map Prod.fst := by
  unfold visit
  cases definition (shapes s) with
  | none => rfl
  | some d =>
    have hnames (field : Field ι) :
        (writeTypeNameColored shapes w.paint depth field.shape).isSome =
          (writeTypeNameColored shapes w'.paint depth field.shape).isSome :=
      Bool.eq_iff_iff.mpr (isSome_writeTypeNameColored_paint w.paint w'.paint depth field.shape)
    simp only [Option.bind_some, printDefinition_eq, hexpand, hnames]
    split_ifs <;> simp [Function.comp_def]

variable [DecidableEq ι]

/-- Writers that expand alike print the same definitions in the same order. -/
theorem formatQueue_map_fst (hexpand : w.expand = w'.expand) {root : ι}
    (hroot : Defines shapes root) (fuel depth : ℕ) (out : σ) (out' : τ) :
    (formatQueue shapes w depth fuel [root] [] out).map Prod.fst =
      (formatQueue shapes w' depth fuel [root] [] out').map Prod.fst := by
  rw [formatQueue_eq_run fuel [] out (List.forall_mem_singleton.mpr hroot),
    formatQueue_eq_run fuel [] out' (List.forall_mem_singleton.mpr hroot)]
  exact Worklist.run_map_fst (visit_map_fst hexpand depth) fuel [root] [] out out'

/-- A loop ends if the names in all definitions that its root leads to can be written. -/
theorem exists_formatQueue [Finite ι] {root : ι} (hroot : Defines shapes root) {depth : ℕ}
    (hdepth : ∀ s, NameEnds shapes s → (writeTypeNameColored shapes w.paint depth s).isSome)
    (hnames : ∀ s, ReflTransGen (Leads shapes w) root s → NamesEnd shapes s) (out : σ) :
    ∃ fuel, (formatQueue shapes w depth fuel [root] [] out).isSome := by
  have hvisit (printed : List ι) (s : ι) (out : σ) (hs : ReflTransGen (Leads shapes w) root s) :
      (visit shapes w depth printed s out).isSome := by
    obtain ⟨d, hd⟩ := Option.isSome_iff_exists.mp (defines_of_leads hroot hs)
    apply isSome_visit.mpr
    exact ⟨d, hd, fun field hfield => hdepth _ (hnames s hs d hd field hfield)⟩
  obtain ⟨fuel, hfuel⟩ := Worklist.exists_run follows_visit hvisit out (.start root)
  refine ⟨fuel, ?_⟩
  rwa [formatQueue_eq_run fuel [] out (List.forall_mem_singleton.mpr hroot)]

theorem formatQueue_of_le {root : ι} (hroot : Defines shapes root) {fuel fuel' depth : ℕ}
    (hle : fuel ≤ fuel') {out : σ} {result : List ι × σ}
    (h : formatQueue shapes w depth fuel [root] [] out = some result) :
    formatQueue shapes w depth fuel' [root] [] out = some result := by
  rw [formatQueue_eq_run _ [] out (List.forall_mem_singleton.mpr hroot)] at h ⊢
  exact Worklist.run_of_le hle h

end

end Facet.Pretty
