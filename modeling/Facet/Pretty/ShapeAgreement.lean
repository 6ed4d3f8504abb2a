import Facet.Pretty.ShapeColors

/-!
# The writers of type definitions agree

Which types the writers print and in which order, and what the recorded positions of the root's
fields and variants are once the types nested in it have been printed too.
-/

namespace Facet.Pretty

open Relation ShapeSpans

variable {ι : Type}

/-- The paths of the fields of a struct or a variant. -/
def dataPaths (above : Path) (data : StructType ι) : List Path :=
  let path (field : Field ι) : Path := above ++ [.field field.name]
  match data.kind with
  | .struct => data.fields.map path
  | .tuple | .tupleStruct => (data.fields.filter fun field => field.name ≠ "").map path
  | .unit => []

def variantPaths (variant : Variant ι) : List Path :=
  [.variant variant.name] :: dataPaths [.variant variant.name] variant.data

/-- The paths of the fields and variants in a definition. -/
def Definition.paths : Definition ι → List Path
  | .struct ty => dataPaths [] ty
  | .enum ty => ty.variants.flatMap variantPaths

section

variable (config : ShapeFormatConfig) (typeName : ι → String)

/-- The texts of the fields and variants, by their paths. -/
def Definition.entries : Definition ι → Entries
  | .struct ty => dataEntries typeName [] ty
  | .enum ty => enumEntries config typeName ty

theorem alwaysWrites_defineWithSpans (shape : Shape ι) (d : Definition ι) :
    AlwaysWrites (d.text config plain "" typeName shape)
      ((d.entries config typeName).or
        (.single [] (d.text config plain "" typeName shape) (d.text config plain "" typeName shape)))
      (defineWithSpans config typeName shape d) := by
  intro ctx
  cases d with
  | struct ty =>
    have hwrites := (alwaysWrites_structBody config typeName shape ty).definition
      { ctx with currentType := some shape.typeIdentifier }
    exact ⟨hwrites.output, hwrites.spans⟩
  | enum ty =>
    have hwrites := (alwaysWrites_enumBody config typeName shape ty).definition
      { ctx with currentType := some shape.typeIdentifier }
    exact ⟨hwrites.output, hwrites.spans⟩

theorem mem_dataPaths_iff (above : Path) (data : StructType ι) (p : Path) :
    p ∈ dataPaths above data ↔ ∃ k v, dataEntries typeName above data p k v := by
  unfold dataPaths dataEntries
  cases data.kind with
  | unit => simp
  | _ =>
    constructor
    · intro hp
      simp only [List.mem_map, List.mem_filter, decide_eq_true_eq] at hp
      obtain ⟨field, hmem, rfl⟩ := hp
      simp
      tauto
    · rintro ⟨k, v, field, hmem, rfl, hv, hk⟩
      simp only [List.mem_map, List.mem_filter, decide_eq_true_eq]
      tauto

theorem Definition.mem_paths_iff (d : Definition ι) (p : Path) :
    p ∈ d.paths ↔ ∃ k v, d.entries config typeName p k v := by
  cases d with
  | struct ty => exact mem_dataPaths_iff typeName [] ty p
  | enum ty =>
    simp only [Definition.paths, Definition.entries, List.mem_flatMap, variantPaths, List.mem_cons,
      enumEntries, variantEntries, Entries.or, Entries.single, mem_dataPaths_iff typeName]
    constructor
    · rintro ⟨variant, hmem, rfl | ⟨k, v, hkv⟩⟩
      · exact ⟨_, _, variant, hmem, .inr ⟨rfl, rfl, rfl⟩⟩
      · exact ⟨k, v, variant, hmem, .inl hkv⟩
    · rintro ⟨k, v, variant, hmem, hkv | ⟨hp, -, -⟩⟩
      · exact ⟨variant, hmem, .inr ⟨k, v, hkv⟩⟩
      · exact ⟨variant, hmem, .inl hp⟩

end

theorem Definition.ne_nil_of_mem_paths {d : Definition ι} {p : Path} (h : p ∈ d.paths) :
    p ≠ [] := by
  rintro rfl
  have hdata (above : Path) (data : StructType ι) : [] ∉ dataPaths above data := by
    unfold dataPaths
    cases data.kind <;> simp
  cases d with
  | struct ty => exact hdata [] ty h
  | enum ty =>
    obtain ⟨variant, -, hvariant⟩ := List.mem_flatMap.mp h
    rcases List.mem_cons.mp hvariant with hnil | hmem
    · cases hnil
    · exact hdata _ _ hmem

/-- Between the two states text was added, and behind the text that was there before, the given
paths were recorded and no others. -/
structure RecordsBehind (P : Path → Prop) (ctx ctx' : SpanTrackingContext) : Prop where
  output : ∃ more, ctx'.output = ctx.output ++ more
  spans : ∀ p, (ctx'.spans p = ctx.spans p ∧ ¬ P p) ∨
    P p ∧ ∃ span, ctx'.spans p = some span ∧ ctx.output.utf8ByteSize < span.key.1 ∧
      span.key.1 ≤ span.key.2

theorem RecordsBehind.congr {P P' : Path → Prop} {ctx ctx' : SpanTrackingContext}
    (h : RecordsBehind P ctx ctx') (hP : ∀ p, P p ↔ P' p) : RecordsBehind P' ctx ctx' where
  output := h.output
  spans := by
    intro p
    rw [← hP p]
    exact h.spans p

theorem RecordsBehind.refl (ctx : SpanTrackingContext) :
    RecordsBehind (fun _ => False) ctx ctx where
  output := ⟨"", String.append_empty.symm⟩
  spans := fun _ => .inl ⟨rfl, not_false⟩

theorem RecordsBehind.trans {P P' : Path → Prop} {ctx ctx' ctx'' : SpanTrackingContext}
    (h : RecordsBehind P ctx ctx') (h' : RecordsBehind P' ctx' ctx'') :
    RecordsBehind (fun p => P p ∨ P' p) ctx ctx'' := by
  obtain ⟨more, hmore⟩ := h.output
  obtain ⟨more', hmore'⟩ := h'.output
  constructor
  · refine ⟨more ++ more', ?_⟩
    rw [hmore', hmore, String.append_assoc]
  · intro p
    rcases h'.spans p with ⟨hsame', hnot'⟩ | ⟨hP', span, hspan, hbehind, hle⟩
    · rcases h.spans p with ⟨hsame, hnot⟩ | ⟨hP, span, hspan, hrest⟩
      · exact .inl ⟨hsame'.trans hsame, not_or.mpr ⟨hnot, hnot'⟩⟩
      · exact .inr ⟨.inl hP, span, hsame'.trans hspan, hrest⟩
    · refine .inr ⟨.inr hP', span, hspan, ?_, hle⟩
      rw [hmore, String.utf8ByteSize_append] at hbehind
      omega

section

variable {config : ShapeFormatConfig} {shapes : Shapes ι} {depth : ℕ}

/-- The paths under which the definition of a type is recorded. -/
def Records (shapes : Shapes ι) (s : ι) (p : Path) : Prop :=
  ∃ d, definition (shapes s) = some d ∧ (p = [] ∨ p ∈ d.paths)

theorem writes_of_visit {printed next : List ι} {s : ι} {ctx ctx' : SpanTrackingContext}
    (h : visit shapes (spanWriter config) depth printed s ctx = some (next, ctx')) :
    ∃ d, definition (shapes s) = some d ∧
      let typeName := nameWithin shapes plain depth
      let text := d.text config plain "" typeName (shapes s)
      Writes text ((d.entries config typeName).or (.single [] text text))
        (if printed.isEmpty then ctx
          else (spanWriter config : ShapeWriter ι SpanTrackingContext).separate ctx) ctx' := by
  obtain ⟨d, hd, hprint⟩ := Option.bind_eq_some_iff.mp h
  refine ⟨d, hd, ?_⟩
  obtain ⟨-, rfl⟩ := printDefinition_spec hd hprint
  exact alwaysWrites_defineWithSpans config _ (shapes s) d _

theorem recordsBehind_of_visit {printed next : List ι} {s : ι} {ctx ctx' : SpanTrackingContext}
    (hprinted : printed ≠ [])
    (h : visit shapes (spanWriter config) depth printed s ctx = some (next, ctx')) :
    RecordsBehind (Records shapes s) ctx ctx' := by
  obtain ⟨d, hd, hwrites⟩ := writes_of_visit h
  rw [if_neg (by simpa using hprinted)] at hwrites
  obtain ⟨houtput, hspans⟩ := hwrites
  have hseparate : ((spanWriter config : ShapeWriter ι _).separate ctx).output =
      ctx.output ++ "\n\n" := rfl
  constructor
  · refine ⟨"\n\n" ++ d.text config plain "" (nameWithin shapes plain depth) (shapes s), ?_⟩
    rw [houtput, hseparate, String.append_assoc]
  · intro p
    have hrecords : Records shapes s p ↔ p = [] ∨ p ∈ d.paths := by
      simp [Records, hd]
    rw [hrecords, d.mem_paths_iff config (nameWithin shapes plain depth)]
    rcases hspans p with ⟨hsame, hnone⟩ | ⟨span, k, v, hspan, hkv, hkey, -⟩
    · refine .inl ⟨hsame, ?_⟩
      rintro (rfl | ⟨k, v, hkv⟩)
      · exact hnone _ _ (.inr ⟨rfl, rfl, rfl⟩)
      · exact hnone k v (.inl hkv)
    · refine .inr ⟨?_, span, hspan, ?_, hkey.start_le_end⟩
      · rcases hkv with hkv | ⟨hp, -, -⟩
        · exact .inr ⟨k, v, hkv⟩
        · exact .inl hp
      · have hstart := hkey.start_le
        have hlen : ("\n\n" : String).utf8ByteSize = 2 := by decide
        rw [hseparate, String.utf8ByteSize_append, hlen] at hstart
        omega

/-- The visits after the root record behind its definition. -/
theorem recordsBehind_of_visitAll {xs printed : List ι} {ctx ctx' : SpanTrackingContext}
    (hprinted : printed ≠ [])
    (h : Worklist.visitAll (visit shapes (spanWriter config) depth) printed xs ctx = some ctx') :
    RecordsBehind (fun p => ∃ s ∈ xs, Records shapes s p) ctx ctx' := by
  induction xs generalizing printed ctx with
  | nil =>
    cases h
    apply (RecordsBehind.refl _).congr
    simp
  | cons s xs ih =>
    rw [Worklist.visitAll] at h
    cases hvisit : visit shapes (spanWriter config) depth printed s ctx with
    | none =>
      rw [hvisit] at h
      cases h
    | some result =>
      obtain ⟨next, mid⟩ := result
      rw [hvisit] at h
      have hrest := ih (by simp) h
      apply ((recordsBehind_of_visit hprinted hvisit).trans hrest).congr
      intro p
      simp only [List.mem_cons, exists_eq_or_imp]

/-- What is recorded for a field or a variant of the root lies in the definition of the root, and
is around the texts there. -/
def RootSpansRight (config : ShapeFormatConfig) (shapes : Shapes ι) (depth : ℕ) (root : ι)
    (ctx : SpanTrackingContext) : Prop :=
  ∀ d, definition (shapes root) = some d →
    let typeName := nameWithin shapes plain depth
    let text := d.text config plain "" typeName (shapes root)
    (∃ more, ctx.output = text ++ more) ∧
      ∀ p ∈ d.paths, ∀ span, ctx.spans p = some span →
        ∃ k v, d.entries config typeName p k v ∧ Covers 0 text span.key k ∧
          Covers 0 text span.value v

/-- The positions are right unless a later definition is recorded under the same path. -/
theorem rootSpansRight_iff {root : ι} {rest : List ι} {ctx : SpanTrackingContext}
    (h : Worklist.visitAll (visit shapes (spanWriter config) depth) [] (root :: rest) {} =
      some ctx) :
    RootSpansRight config shapes depth root ctx ↔
      ∀ d, definition (shapes root) = some d → ∀ p ∈ d.paths, ∀ s ∈ rest, ¬ Records shapes s p := by
  rw [Worklist.visitAll] at h
  cases hvisit : visit shapes (spanWriter config) depth [] root ({} : SpanTrackingContext) with
  | none =>
    rw [hvisit] at h
    cases h
  | some result =>
    obtain ⟨next, mid⟩ := result
    rw [hvisit] at h
    obtain ⟨d, hd, houtput, hspans⟩ := writes_of_visit hvisit
    have hbehind := recordsBehind_of_visitAll (List.cons_ne_nil _ _) h
    have hmid : mid.output = d.text config plain "" (nameWithin shapes plain depth) (shapes root) :=
      houtput.trans String.empty_append
    rw [RootSpansRight]
    simp only [hd, Option.some.injEq, forall_eq']
    constructor
    · rintro ⟨-, hright⟩ p hp s hs hrecords
      rcases hbehind.spans p with ⟨-, hnot⟩ | ⟨-, span, hspan, hlt, hle⟩
      · exact hnot ⟨s, hs, hrecords⟩
      · obtain ⟨k, v, -, hkey, -⟩ := hright p hp span hspan
        have hend := hkey.le_end
        rw [← hmid] at hend
        omega
    · intro hnone
      rw [← hmid]
      refine ⟨hbehind.output, ?_⟩
      intro p hp span hspan
      rcases hbehind.spans p with ⟨hsame, -⟩ | ⟨⟨s, hs, hrecords⟩, -⟩
      · rw [hsame] at hspan
        rcases hspans p with ⟨-, hno⟩ | ⟨span', k, v, hspan', hkv, hkey, hvalue⟩
        · obtain ⟨k, v, hkv⟩ := (d.mem_paths_iff config (nameWithin shapes plain depth) p).mp hp
          exact absurd (.inl hkv) (hno k v)
        · rw [hspan] at hspan'
          cases hspan'
          rcases hkv with hkv | ⟨hnil, -, -⟩
          · exact ⟨k, v, hkv, hkey, hvalue⟩
          · exact absurd hnil (Definition.ne_nil_of_mem_paths hp)
      · exact absurd hrecords (hnone p hp s hs)

end

/-- The types that occur in the two views of a shape. -/
def mentions (shape : Shape ι) : List ι :=
  let byDef := match shape.def with
    | .list t | .array t _ | .option t | .set t | .ndArray t | .slice t => [t]
    | .map k v => [k, v]
    | .result t e => [t, e]
    | .pointer pointee => pointee.toList
    | .undefined | .scalar | .dynamicValue => []
  let byTy := match shape.ty with
    | .sequence (.array t _) | .sequence (.slice t) => [t]
    | .pointer (.reference t) | .pointer (.raw t) => [t]
    | .user (.struct ty) => ty.fields.map Field.shape
    | .user (.enum ty) => ty.variants.flatMap fun variant => variant.data.fields.map Field.shape
    | _ => []
  byDef ++ byTy

section

variable (config : ShapeFormatConfig) (paint : Paint) (shapes : Shapes ι) (root : ι)

/-- The type is reachable, through whatever its way consists of. -/
def Reaches (s t : ι) : Prop := ReflTransGen (Descent.Refers fun s => mentions (shapes s)) s t

/-- The type is to be printed: it is the root, or reachable from it if nested types are expanded. -/
def Due (s : ι) : Prop :=
  Defines shapes s ∧ (s = root ∨ config.expandNestedTypes = true ∧ Reaches shapes root s)

/-- The three writers end and print the definitions of the types that are due, each once and in the
same order: painted, the same without the paint, and plain without the blank lines in between. The
recorded positions of the root's fields and variants are right. -/
def PrintsAlike [DecidableEq ι] : Prop :=
  ∃ fuel depth order colored text ctx,
    formatShapeColoredWithConfig config paint shapes fuel depth root = some (order, colored) ∧
    formatShapeWithConfig config paint shapes fuel depth root = some (order, text) ∧
    formatShapeWithSpansAndConfig config shapes fuel depth root = some (order, ctx) ∧
    order.Nodup ∧ (∀ s, s ∈ order ↔ Due config shapes root s) ∧
    colored = definitionTexts config shapes paint "\n" depth order ∧
    text = definitionTexts config shapes plain "\n" depth order ∧
    ctx.output = definitionTexts config shapes plain "" depth order ∧
    RootSpansRight config shapes depth root ctx

/-- When the writers do so. -/
structure PrintsWhen : Prop where
  /-- The names of types do not contain themselves. -/
  names : ∀ s, ReflTransGen (Nested shapes) root s → NamesEnd shapes s
  /-- Without expansion there is nothing to expand. -/
  unexpanded : config.expandNestedTypes = false → ∀ s, Nested shapes root s → s = root
  /-- With expansion, no definition is behind a set, a result, a pointer or a slice only. -/
  expanded : config.expandNestedTypes = true → ∀ s, Defines shapes s → Reaches shapes root s →
    ReflTransGen (Nested shapes) root s
  /-- No nested type has a field or variant of the root's path. -/
  distinct : config.expandNestedTypes = true → ∀ s, ReflTransGen (Nested shapes) root s →
    s ≠ root → ∀ d, definition (shapes root) = some d → ∀ p ∈ d.paths, ¬ Records shapes s p
  /-- No string in the definitions has an escape character. -/
  escapes : ∀ s, ReflTransGen (Nested shapes) root s → DefinitionPlain config shapes s

end

section

variable {config : ShapeFormatConfig} {paint : Paint} {shapes : Shapes ι} {root : ι}

theorem leads_iff_nested {σ : Type} {w : ShapeWriter ι σ} (hexpand : w.expand = true) :
    Leads shapes w = Nested shapes := by
  funext s t
  simp [Leads, hexpand]

theorem reaches_leads_iff {σ : Type} {w : ShapeWriter ι σ} (hexpand : w.expand = false) (s : ι) :
    ReflTransGen (Leads shapes w) root s ↔ s = root := by
  constructor
  · intro h
    cases h.cases_head with
    | inl heq => exact heq.symm
    | inr hstep =>
      obtain ⟨t, ⟨htrue, -⟩, -⟩ := hstep
      rw [hexpand] at htrue
      cases htrue
  · rintro rfl
    exact .refl

theorem eq_of_not_defines (hroot : ¬ Defines shapes root) {s : ι}
    (h : ReflTransGen (Nested shapes) root s) : s = root := by
  cases h.cases_head with
  | inl heq => exact heq.symm
  | inr hstep =>
    obtain ⟨t, ⟨d, hd, -⟩, -⟩ := hstep
    exact absurd (Option.isSome_of_mem hd) hroot

theorem mem_rest_iff {order rest : List ι} (horder : order = root :: rest) (hnodup : order.Nodup)
    (s : ι) : s ∈ rest ↔ s ∈ order ∧ s ≠ root := by
  subst horder
  have hnot := (List.nodup_cons.mp hnodup).1
  rw [List.mem_cons]
  constructor
  · intro hs
    refine ⟨.inr hs, ?_⟩
    rintro rfl
    exact hnot hs
  · rintro ⟨rfl | hs, hne⟩
    · exact absurd rfl hne
    · exact hs

theorem appends_spanWriter :
    (spanWriter config : ShapeWriter ι SpanTrackingContext).Appends config ""
      SpanTrackingContext.output where
  separate _ := rfl
  define typeName shape d out := (alwaysWrites_defineWithSpans config typeName shape d out).output

variable [DecidableEq ι]

/-- The names in the definitions that the writer with spans has written. -/
theorem isSome_of_formatQueue {fuel depth : ℕ} {order : List ι} {ctx : SpanTrackingContext}
    (hroot : Defines shapes root)
    (h : formatShapeWithSpansAndConfig config shapes fuel depth root = some (order, ctx)) :
    ∀ s ∈ order, ∀ d, definition (shapes s) = some d →
      ∀ field ∈ d.fields, (writeTypeNameColored shapes plain depth field.shape).isSome := by
  intro s hs d hd field hfield
  obtain ⟨-, -, -, hvisits⟩ := formatQueue_spec hroot h
  obtain ⟨printed, out, hvisit⟩ := Worklist.isSome_of_visitAll hvisits hs
  obtain ⟨d', hd', hnames⟩ := isSome_visit.mp hvisit
  rw [hd] at hd'
  cases hd'
  exact hnames field hfield

theorem PrintsAlike.printsWhen (hpaint : paint.Surrounds)
    (h : PrintsAlike config paint shapes root) : PrintsWhen config shapes root := by
  obtain ⟨fuel, depth, order, colored, text, ctx, hcolored, htext, hspans, -, hdue, rfl, rfl, -,
    hright⟩ := h
  have hnested : Leads shapes (coloredWriter config paint) = Nested shapes := leads_iff_nested rfl
  by_cases hroot : Defines shapes root
  · obtain ⟨-, -, hmem, hvisits⟩ := formatQueue_spec hroot hcolored
    obtain ⟨⟨rest, horder⟩, hnodup, -, hvisits'⟩ := formatQueue_spec hroot hspans
    rw [hnested] at hmem
    constructor
    · intro s hs
      obtain ⟨printed, out, hvisit⟩ := Worklist.isSome_of_visitAll hvisits ((hmem s).mpr hs)
      exact namesEnd_of_visit hvisit
    · intro hexpand s hs
      obtain ⟨-, heq | ⟨htrue, -⟩⟩ := (hdue s).mp ((hmem s).mpr (.single hs))
      · exact heq
      · rw [hexpand] at htrue
        cases htrue
    · intro hexpand s hs hreach
      exact (hmem s).mp ((hdue s).mpr ⟨hs, .inr ⟨hexpand, hreach⟩⟩)
    · intro _ s hs hne d hd p hp
      rw [horder] at hvisits'
      have hs : s ∈ rest := (mem_rest_iff horder hnodup s).mpr ⟨(hmem s).mpr hs, hne⟩
      exact (rootSpansRight_iff hvisits').mp hright d hd p hp s hs
    · intro s hs
      rw [formatShapeWithConfig, hcolored] at htext
      have hstrip : String.ofList (stripAnsi false
          (definitionTexts config shapes paint "\n" depth order).toList) =
          definitionTexts config shapes plain "\n" depth order :=
        congrArg Prod.snd (Option.some.inj htext)
      have hfree := (stripsTo_definitionTexts hpaint order).stripAnsi_eq_iff.mp hstrip
      exact (escapeFree_definitionTexts (by decide) (isSome_of_formatQueue hroot hspans)).mp hfree
        s ((hmem s).mpr hs)
  · have horder : order = [] := eq_nil_of_not_defines hroot hcolored
    constructor
    · intro s hs d hd
      rw [eq_of_not_defines hroot hs] at hd
      exact absurd (Option.isSome_of_mem hd) hroot
    · exact fun _ s hs => eq_of_not_defines hroot (.single hs)
    · intro hexpand s hs hreach
      have hmem := (hdue s).mpr ⟨hs, .inr ⟨hexpand, hreach⟩⟩
      rw [horder] at hmem
      cases hmem
    · intro _ s hs hne
      exact absurd (eq_of_not_defines hroot hs) hne
    · intro s hs d hd
      rw [eq_of_not_defines hroot hs] at hd
      exact absurd (Option.isSome_of_mem hd) hroot

omit [DecidableEq ι] in
theorem reaches_of_container {s t : ι}
    (h : ReflTransGen (Descent.Refers (containerArguments shapes)) s t) : Reaches shapes s t := by
  apply h.lift id
  intro s t ht
  unfold Descent.Refers containerArguments at ht
  unfold Descent.Refers mentions
  apply List.mem_append_left
  cases hdef : (shapes s).def with
  | list _ | array _ _ | option _ | map _ _ => simpa [hdef] using ht
  | _ => simp [hdef] at ht

omit [DecidableEq ι] in
theorem reaches_of_nested {s t : ι} (h : Nested shapes s t) : Reaches shapes s t := by
  obtain ⟨d, hd, field, hfield, hreach, -⟩ := h
  apply (reaches_of_container hreach).head
  unfold Descent.Refers mentions
  apply List.mem_append_right
  rw [ty_eq_of_definition hd]
  cases d with
  | struct ty => exact List.mem_map_of_mem hfield
  | enum ty =>
    obtain ⟨variant, hvariant, hfield⟩ := List.mem_flatMap.mp hfield
    exact List.mem_flatMap.mpr ⟨variant, hvariant, List.mem_map_of_mem hfield⟩

omit [DecidableEq ι] in
theorem PrintsWhen.due_iff (h : PrintsWhen config shapes root) (hroot : Defines shapes root)
    (s : ι) : Due config shapes root s ↔ ReflTransGen (Nested shapes) root s := by
  constructor
  · rintro ⟨hs, rfl | ⟨hexpand, hreach⟩⟩
    · exact .refl
    · exact h.expanded hexpand s hs hreach
  · intro hs
    induction hs with
    | refl => exact ⟨hroot, .inl rfl⟩
    | @tail t u ht htu ih =>
      obtain ⟨-, -, -, -, -, hdefines⟩ := id htu
      refine ⟨hdefines, ?_⟩
      rcases ih.2 with rfl | ⟨hexpand, hreach⟩
      · cases hexpand : config.expandNestedTypes with
        | false => exact .inl (h.unexpanded hexpand u htu)
        | true => exact .inr ⟨rfl, reaches_of_nested htu⟩
      · exact .inr ⟨hexpand, hreach.trans (reaches_of_nested htu)⟩

omit [DecidableEq ι] in
/-- Without expansion only the root is nested in the root. -/
theorem PrintsWhen.nested_iff (h : PrintsWhen config shapes root)
    (hexpand : config.expandNestedTypes = false) (s : ι) :
    ReflTransGen (Nested shapes) root s ↔ s = root := by
  constructor
  · intro hs
    induction hs with
    | refl => rfl
    | tail _ hnested ih => exact h.unexpanded hexpand _ (ih ▸ hnested)
  · rintro rfl
    exact .refl

theorem formatShapeWithConfig_eq {fuel depth : ℕ} {order : List ι} {colored : String}
    (h : formatShapeColoredWithConfig config paint shapes fuel depth root =
      some (order, colored)) :
    formatShapeWithConfig config paint shapes fuel depth root =
      some (order, String.ofList (stripAnsi false colored.toList)) := by
  rw [formatShapeWithConfig, h]
  rfl

theorem PrintsWhen.exists_order [Finite ι] (h : PrintsWhen config shapes root)
    (hroot : Defines shapes root) (paint : Paint) :
    ∃ fuel depth order colored ctx,
      formatShapeColoredWithConfig config paint shapes fuel depth root = some (order, colored) ∧
      formatShapeWithSpansAndConfig config shapes fuel depth root = some (order, ctx) := by
  obtain ⟨depth, hdepth⟩ := Descent.exists_fuel (fun _ => rfl)
    (isSome_writeTypeNameColored_succ shapes paint)
  have hplain : ∀ s, NameEnds shapes s → (writeTypeNameColored shapes plain depth s).isSome :=
    fun s hs => (isSome_writeTypeNameColored_paint paint plain depth s).mp (hdepth s hs)
  have hnames {σ : Type} {w : ShapeWriter ι σ} {s : ι}
      (hs : ReflTransGen (Leads shapes w) root s) : NamesEnd shapes s :=
    h.names s (hs.lift id fun t u htu => htu.2)
  obtain ⟨fuel, hcolored⟩ := exists_formatQueue (w := coloredWriter config paint) hroot hdepth
    (fun s hs => hnames hs) ""
  obtain ⟨fuel', hspans⟩ := exists_formatQueue (w := spanWriter config) hroot hplain
    (fun s hs => hnames hs) ({} : SpanTrackingContext)
  obtain ⟨⟨order, colored⟩, hcolored⟩ := Option.isSome_iff_exists.mp hcolored
  obtain ⟨⟨order', ctx⟩, hspans⟩ := Option.isSome_iff_exists.mp hspans
  have hcolored := formatQueue_of_le hroot (le_max_left fuel fuel') hcolored
  have hspans := formatQueue_of_le hroot (le_max_right fuel fuel') hspans
  have hsame : order = order' := by
    cases hexpand : config.expandNestedTypes with
    | true =>
      have hexpands : (coloredWriter config paint : ShapeWriter ι String).expand =
          (spanWriter config : ShapeWriter ι SpanTrackingContext).expand := hexpand.symm
      have hfst := formatQueue_map_fst hexpands hroot (max fuel fuel') depth "" {}
      rw [hcolored, hspans] at hfst
      exact Option.some.inj hfst
    | false =>
      -- both have printed the root only
      obtain ⟨⟨rest, rfl⟩, hnodup, hmem, -⟩ := formatQueue_spec hroot hcolored
      obtain ⟨⟨rest', rfl⟩, hnodup', hmem', -⟩ := formatQueue_spec hroot hspans
      have hempty {xs : List ι} (hxs : (root :: xs).Nodup)
          (hroots : ∀ s ∈ root :: xs, s = root) : xs = [] := by
        apply List.eq_nil_iff_forall_not_mem.mpr
        intro s hs
        exact ((mem_rest_iff rfl hxs s).mp hs).2 (hroots s (List.mem_cons_of_mem root hs))
      rw [hempty hnodup fun s hs => (h.nested_iff hexpand s).mp
          (leads_iff_nested (w := coloredWriter config paint) rfl ▸ (hmem s).mp hs),
        hempty hnodup' fun s hs => (reaches_leads_iff hexpand s).mp ((hmem' s).mp hs)]
  subst hsame
  exact ⟨max fuel fuel', depth, order, colored, ctx, hcolored, hspans⟩

theorem PrintsWhen.printsAlike [Finite ι] (hpaint : paint.Surrounds)
    (h : PrintsWhen config shapes root) : PrintsAlike config paint shapes root := by
  by_cases hroot : Defines shapes root
  · obtain ⟨fuel, depth, order, colored, ctx, hcolored, hspans⟩ :=
      h.exists_order hroot paint
    obtain ⟨-, -, hmem, -⟩ := formatQueue_spec hroot hcolored
    obtain ⟨⟨rest, horder⟩, hnodup, -, hvisits⟩ := formatQueue_spec hroot hspans
    rw [leads_iff_nested (w := coloredWriter config paint) rfl] at hmem
    have hdefinitions : colored = definitionTexts config shapes paint "\n" depth order :=
      (appends_coloredWriter config paint).formatQueue hroot rfl hcolored
    refine ⟨fuel, depth, order, colored, _, ctx, hcolored, formatShapeWithConfig_eq hcolored,
      hspans, hnodup, ?_, hdefinitions, ?_, appends_spanWriter.formatQueue hroot rfl hspans, ?_⟩
    · intro s
      rw [hmem, h.due_iff hroot]
    · rw [hdefinitions]
      apply (stripsTo_definitionTexts hpaint order).stripAnsi_eq_iff.mpr
      apply (escapeFree_definitionTexts (by decide) (isSome_of_formatQueue hroot hspans)).mpr
      exact fun s hs => h.escapes s ((hmem s).mp hs)
    · rw [horder] at hvisits
      apply (rootSpansRight_iff hvisits).mpr
      intro d hd p hp s hs
      obtain ⟨hs, hne⟩ := (mem_rest_iff horder hnodup s).mp hs
      have hnested := (hmem s).mp hs
      cases hexpand : config.expandNestedTypes with
      | true => exact h.distinct hexpand s hnested hne d hd p hp
      | false => exact absurd ((h.nested_iff hexpand s).mp hnested) hne
  · have hcolored : formatShapeColoredWithConfig config paint shapes 2 0 root = some ([], "") :=
      formatQueue_of_not_defines hroot 0 ""
    have hempty : String.ofList (stripAnsi false "".toList) = "" := by simp [stripAnsi]
    refine ⟨2, 0, [], "", _, {}, hcolored, formatShapeWithConfig_eq hcolored,
      formatQueue_of_not_defines hroot 0 _, List.nodup_nil, ?_, rfl, hempty, rfl, ?_⟩
    · intro s
      simp only [List.not_mem_nil, false_iff]
      rintro ⟨hs, heq | ⟨hexpand, hreach⟩⟩
      · exact hroot (heq ▸ hs)
      · rw [eq_of_not_defines hroot (h.expanded hexpand s hs hreach)] at hs
        exact hroot hs
    · intro d hd
      exact absurd (Option.isSome_of_mem hd) hroot

/-- The writers do what is documented exactly under these conditions. -/
theorem printsAlike_iff [Finite ι] (config : ShapeFormatConfig) {paint : Paint}
    (hpaint : paint.Surrounds) (shapes : Shapes ι) (root : ι) :
    PrintsAlike config paint shapes root ↔ PrintsWhen config shapes root :=
  ⟨PrintsAlike.printsWhen hpaint, PrintsWhen.printsAlike hpaint⟩

end

local instance neZero_three : NeZero 3 := ⟨by decide⟩

/-- `struct Outer { inner: Inner }` with `struct Inner { count: u8 }`. -/
def outerShapes : Shapes (Fin 3)
  | 0 => {
      ty := .user (.struct ⟨.struct, [{ name := "inner", shape := 1 }]⟩)
      «def» := .undefined
      typeIdentifier := "Outer" }
  | 1 => {
      ty := .user (.struct ⟨.struct, [{ name := "count", shape := 2 }]⟩)
      «def» := .undefined
      typeIdentifier := "Inner" }
  | 2 => { ty := .primitive .numeric, «def» := .scalar, typeIdentifier := "u8" }

theorem nested_outer : Nested outerShapes 0 1 :=
  ⟨_, rfl, { name := "inner", shape := 1 }, List.mem_singleton.mpr rfl, .refl, rfl⟩

/-- The colors of the palette for dark terminals. -/
def melangeDark : ShapeStyle → String
  | .keyword => "38;2;235;192;109"
  | .typeName | .primitive | .container => "38;2;123;150;149"
  | .fieldName => "38;2;236;225;215"
  | .punctuation => "38;2;134;116;98"
  | .attribute | .attributeContent | .comment => "38;2;193;167;142"
  | .string => "38;2;163;169;206"

def melange : Paint := fun style text =>
  "\x1b[" ++ melangeDark style ++ "m" ++ text ++ "\x1b[0m"

theorem surrounds_melange : melange.Surrounds := by
  have hcode (parameters : String) (h : ∀ c ∈ parameters.toList, c.isAlpha = false) :
      IsEscapeCode ("\x1b[" ++ parameters ++ "m") :=
    ⟨parameters.toList, 'm', by simp [escape], h, by decide⟩
  intro style
  refine ⟨"\x1b[" ++ melangeDark style ++ "m", "\x1b[" ++ "0" ++ "m", ?_, hcode "0" (by simp),
    fun text => rfl⟩
  apply hcode
  cases style with
  | _ => simp [melangeDark]

/-- With expansion turned off, the writers differ on it. -/
theorem not_printsAlike_outer :
    ¬ PrintsAlike { expandNestedTypes := false } melange outerShapes 0 := by
  intro h
  have heq := (h.printsWhen surrounds_melange).unexpanded rfl 1 nested_outer
  cases heq

/-- With expansion on, they print both types. -/
theorem printsAlike_outer : PrintsAlike { expandNestedTypes := true } melange outerShapes 0 := by
  have harguments : ∀ s, nameArguments outerShapes s = [] := by decide
  apply (printsAlike_iff { expandNestedTypes := true } surrounds_melange outerShapes 0).mpr
  constructor
  · intro s _ d _ field _
    constructor
    intro t ht
    have ht : t ∈ nameArguments outerShapes field.shape := ht
    rw [harguments] at ht
    cases ht
  · intro hexpand
    cases hexpand
  · intro _ s hs _
    fin_cases s
    · exact .refl
    · exact .single nested_outer
    · cases hs
  · intro _ s _ hne d hd p hp hrecords
    obtain ⟨d', hd', hp'⟩ := hrecords
    cases hd
    have hroot : p = [.field "inner"] := List.mem_singleton.mp hp
    subst hroot
    fin_cases s
    · exact hne rfl
    · cases hd'
      simp [Definition.paths, dataPaths] at hp'
    · cases hd'
  · intro s _ d hd
    have hidentifiers : ∀ t, ∀ text ∈ identifierShown outerShapes t, EscapeFree text := by decide
    refine ⟨?_, fun t _ u _ => hidentifiers u⟩
    fin_cases s
    · cases hd
      decide
    · cases hd
      decide
    · cases hd

end Facet.Pretty
