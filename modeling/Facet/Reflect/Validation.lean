import Facet.Reflect.SubtreeInvariants

/-!
# The invariant walk

Before a built value is handed out, a walk calls the invariants of the value and of
everything nested in it. Values are identified by shape and address and visited once;
a part is skipped when its shape is known to have no invariants below it.
-/

namespace Facet.Reflect

variable {ι ν : Type}

/-- What a value is made of, as `Peek` reads it. -/
inductive Content (ν : Type)
  | struct (fields : List ν)
  | enum (variant : ℕ) (fields : List ν)
  | listLike (elems : List ν)
  | map (entries : List (ν × ν))
  | set (elems : List ν)
  | option (value : Option ν)
  | result (value : ν ⊕ ν)
  | pointer (inner : Option ν)
  | leaf

def Content.defParts (d : Def ι) (content : Content ν) : List (ι × ν) :=
  match d, content with
  | .list t, .listLike vs => vs.map (t, ·)
  | .array t _, .listLike vs => vs.map (t, ·)
  | .slice t, .listLike vs => vs.map (t, ·)
  | .map k v, .map entries => entries.flatMap fun (key, value) => [(k, key), (v, value)]
  | .set t, .set vs => vs.map (t, ·)
  | .option t, .option (some v) => [(t, v)]
  | .result t _, .result (.inl v) => [(t, v)]
  | .result _ e, .result (.inr v) => [(e, v)]
  | .pointer (some t), .pointer (some v) => [(t, v)]
  | _, _ => []

/-- The parts of a value, each with the shape it is declared with. -/
def Content.parts (shape : Shape ι) (content : Content ν) : List (ι × ν) :=
  match shape.ty, content with
  | .user (.struct st), .struct vs => (st.fields.map Field.shape).zip vs
  | .user (.enum en), .enum i vs =>
    (en.variants[i]?.elim [] fun variant => variant.data.fields.map Field.shape).zip vs
  | .user (.struct _), _ => []
  | .user (.enum _), _ => []
  | _, content => content.defParts shape.def

/-- Initialised values, identified by shape and address. A part has the shape it is
declared with, and only shapes with an invariants function call one. -/
structure Heap (shapes : Shapes ι) (ν : Type) where
  shapeOf : ν → ι
  content : ν → Content ν
  callInvariants : ν → Option (Except String Unit)
  typed : ∀ v, ∀ p ∈ (content v).parts (shapes (shapeOf v)), shapeOf p.2 = p.1
  declared : ∀ v, (callInvariants v).isSome → (shapes (shapeOf v)).hasInvariants

/-- Why a walk ends early; `unfinished` stands for exhausted fuel. -/
inductive Stop (ι : Type)
  | failed (shape : ι) (message : String)
  | unfinished

/-- A query as the walk makes it, with the memo that it meets. -/
structure Query (ι : Type) where
  shape : ι
  memo : ι → Option Bool

/-- The queries made so far are kept for the statements about a walk only. -/
structure WalkState (shapes : Shapes ι) (ν : Type) where
  visited : Finset ν
  subtrees : SubtreeCache shapes
  asked : List (Query ι)

/-- What one call of the walk is: it ends early or changes the walk's state. -/
abbrev Walker (shapes : Shapes ι) (ν : Type) :=
  WalkState shapes ν → Except (Stop ι) (WalkState shapes ν)

section Walk

variable {shapes : Shapes ι}

def validateEntry (validate : ν → Walker shapes ν) (keyHasInvariants valueHasInvariants : Bool)
    (w : WalkState shapes ν) (entry : ν × ν) : Except (Stop ι) (WalkState shapes ν) :=
  (if keyHasInvariants then validate entry.1 w else .ok w) >>= fun w =>
    if valueHasInvariants then validate entry.2 w else .ok w

variable [DecidableEq ι] [Fintype ι]

def WalkState.query (t : ι) (w : WalkState shapes ν) : Bool × WalkState shapes ν :=
  let (hasInvariants, subtrees) := w.subtrees.query t
  (hasInvariants, { w with subtrees, asked := w.asked ++ [⟨t, w.subtrees.memo⟩] })

/-- A part whose shape is looked up first. -/
def validateField (validate : ν → Walker shapes ν) (w : WalkState shapes ν) (part : ι × ν) :
    Except (Stop ι) (WalkState shapes ν) :=
  let (hasInvariants, w) := w.query part.1
  if hasInvariants then validate part.2 w else .ok w

/-- Elements that share a shape, which is looked up once. -/
def validateElems (validate : ν → Walker shapes ν) (t : ι) (vs : List ν) : Walker shapes ν :=
  fun w =>
    let (hasInvariants, w) := w.query t
    if hasInvariants then vs.foldlM (fun w v => validate v w) w else .ok w

def validateMap (validate : ν → Walker shapes ν) (k v : ι) (entries : List (ν × ν)) :
    Walker shapes ν :=
  fun w =>
    let (keyHasInvariants, w) := w.query k
    let (valueHasInvariants, w) := w.query v
    if keyHasInvariants || valueHasInvariants then
      entries.foldlM (validateEntry validate keyHasInvariants valueHasInvariants) w
    else .ok w

def validateFields (validate : ν → Walker shapes ν) (fields : List ι) (vs : List ν) :
    Walker shapes ν :=
  (fields.zip vs).foldlM (validateField validate)

def validateDef (validate : ν → Walker shapes ν) (d : Def ι) (content : Content ν) :
    Walker shapes ν :=
  match d, content with
  | .list t, .listLike vs => validateElems validate t vs
  | .array t _, .listLike vs => validateElems validate t vs
  | .slice t, .listLike vs => validateElems validate t vs
  | .map k v, .map entries => validateMap validate k v entries
  | .set t, .set vs => validateElems validate t vs
  | .option t, .option (some v) => (validateField validate · (t, v))
  -- the two sides of a result are not looked up before the descent
  | .result _ _, .result (.inl v) => validate v
  | .result _ _, .result (.inr v) => validate v
  | .pointer (some t), .pointer (some v) => (validateField validate · (t, v))
  | _, _ => .ok

/-- The descent of `validate_invariants_recursive` into one value. -/
def validateParts (validate : ν → Walker shapes ν) (shape : Shape ι) (content : Content ν) :
    Walker shapes ν :=
  match shape.ty, content with
  | .user (.struct st), .struct vs => validateFields validate (st.fields.map Field.shape) vs
  | .user (.enum en), .enum i vs =>
    validateFields validate
      (en.variants[i]?.elim [] fun variant => variant.data.fields.map Field.shape) vs
  | .user (.struct _), _ => .ok
  | .user (.enum _), _ => .ok
  | _, content => validateDef validate shape.def content

variable [DecidableEq ν] (heap : Heap shapes ν)

def validateInvariantsUpTo : ℕ → ν → Walker shapes ν
  | 0, _, _ => .error .unfinished
  | n + 1, v, w =>
    let (hasInvariants, w) := w.query (heap.shapeOf v)
    if !hasInvariants then .ok w
    else if v ∈ w.visited then .ok w
    else
      match heap.callInvariants v with
      | some (.error message) => .error (.failed (heap.shapeOf v) message)
      | _ =>
        validateParts (validateInvariantsUpTo n) (shapes (heap.shapeOf v)) (heap.content v)
          { w with visited := insert v w.visited }

/-- `validate_invariants_recursive` from the root: a new cache, nothing visited. The depth
of the walk is at most the number of values. -/
def validateInvariants [Fintype ν] (root : ν) (c : SubtreeCache shapes) :
    Except (Stop ι) (WalkState shapes ν) :=
  validateInvariantsUpTo heap (Fintype.card ν + 1) root ⟨∅, c.newWalk, []⟩

end Walk

section Spec

variable {shapes : Shapes ι} (heap : Heap shapes ν)

def Heap.PartOf (a b : ν) : Prop :=
  b ∈ ((heap.content a).parts (shapes (heap.shapeOf a))).map Prod.snd

/-- A value the walk can get to from `a`, itself included. -/
def Heap.Nested (a b : ν) : Prop := Relation.ReflTransGen heap.PartOf a b

/-- The value's own invariants, if it has any, accept it. -/
def Heap.Satisfied (v : ν) : Prop := ∀ message, heap.callInvariants v ≠ some (.error message)

variable (shapes) in
/-- With this memo the query finds the invariants below the shape if there are any. -/
def Query.Answerable (q : Query ι) : Prop :=
  DeclaresBelow shapes q.shape → OpenIn shapes q.memo q.shape

/-- All queries so far could be answered. -/
def WalkState.Informed (w : WalkState shapes ν) : Prop := ∀ q ∈ w.asked, q.Answerable shapes

/-- Nothing needs to be done about `v` any more. -/
def Heap.Handled (w : WalkState shapes ν) (v : ν) : Prop :=
  v ∈ w.visited ∨ ¬ DeclaresBelow shapes (heap.shapeOf v)

variable {heap}

theorem Content.subtrees_of_mem_parts {shape : Shape ι} {content : Content ν} {p : ι × ν}
    (hp : p ∈ content.parts shape) : p.1 ∈ shape.subtrees := by
  unfold Content.parts at hp
  unfold Shape.subtrees
  split at hp
  · next hty =>
    rw [hty]
    exact (List.of_mem_zip hp).1
  · next en i vs hty =>
    rw [hty]
    have hmem := (List.of_mem_zip hp).1
    cases hvariant : en.variants[i]? with
    | none => simp [hvariant] at hmem
    | some variant =>
      rw [hvariant, Option.elim_some] at hmem
      exact List.mem_flatMap.mpr ⟨variant, List.mem_of_getElem? hvariant, hmem⟩
  · simp at hp
  · simp at hp
  · unfold Content.defParts at hp
    split at hp <;> simp_all <;> grind

theorem declaresBelow_of_partOf {a b : ν} (hab : heap.PartOf a b)
    (h : DeclaresBelow shapes (heap.shapeOf b)) : DeclaresBelow shapes (heap.shapeOf a) := by
  obtain ⟨p, hp, rfl⟩ := List.mem_map.mp hab
  rw [heap.typed a p hp] at h
  exact h.of_subtree (Content.subtrees_of_mem_parts hp)

/-- Between two states of a walk: states that were reached stay reached, and every value
reached in between satisfies its invariants and has its parts handled. -/
structure Progress (heap : Heap shapes ν) (w w' : WalkState shapes ν) : Prop where
  visited : w.visited ⊆ w'.visited
  asked : w.asked <+: w'.asked
  reached : w'.Informed → ∀ u ∈ w'.visited, u ∉ w.visited →
    heap.Satisfied u ∧ ∀ v, heap.PartOf u v → heap.Handled w' v

namespace Progress

variable {w w₁ w₂ : WalkState shapes ν}

theorem refl : Progress heap w w where
  visited := subset_rfl
  asked := List.prefix_rfl
  reached _ _ hu hnot := absurd hu hnot

theorem informed (h : Progress heap w w₁) (hinf : w₁.Informed) : w.Informed :=
  fun q hq => hinf q (h.asked.subset hq)

theorem handled (h : Progress heap w w₁) {v : ν} (hv : heap.Handled w v) : heap.Handled w₁ v :=
  hv.imp_left (h.visited ·)

theorem trans (h₁ : Progress heap w w₁) (h₂ : Progress heap w₁ w₂) : Progress heap w w₂ where
  visited := h₁.visited.trans h₂.visited
  asked := h₁.asked.trans h₂.asked
  reached hinf u hu hnot := by
    by_cases hmid : u ∈ w₁.visited
    · obtain ⟨hsat, hparts⟩ := h₁.reached (h₂.informed hinf) u hmid hnot
      exact ⟨hsat, fun v hv => h₂.handled (hparts v hv)⟩
    · exact h₂.reached hinf u hu hmid

end Progress

/-- What a walk over the values `vs` from `w` guarantees. -/
def Walks (heap : Heap shapes ν) (w : WalkState shapes ν) (vs : List ν) :
    Except (Stop ι) (WalkState shapes ν) → Prop
  | .ok w' => Progress heap w w' ∧ (w'.Informed → ∀ v ∈ vs, heap.Handled w' v)
  | .error (.failed shape message) => ∃ v ∈ vs, ∃ u, heap.Nested v u ∧
      heap.shapeOf u = shape ∧ heap.callInvariants u = some (.error message)
  | .error .unfinished => False

namespace Walks

variable {w w₁ : WalkState shapes ν} {us vs : List ν} {r : Except (Stop ι) (WalkState shapes ν)}

theorem nil (w : WalkState shapes ν) : Walks heap w [] (.ok w) :=
  ⟨.refl, fun _ _ hv => absurd hv List.not_mem_nil⟩

theorem of_progress (hw : Progress heap w w₁) (h : Walks heap w₁ vs r) : Walks heap w vs r := by
  match r, h with
  | .ok w', ⟨hprogress, hhandled⟩ => exact ⟨hw.trans hprogress, hhandled⟩
  | .error (.failed _ _), h => exact h

theorem bind {next : Walker shapes ν} (h : Walks heap w us r)
    (hnext : ∀ w', Progress heap w w' → Walks heap w' vs (next w')) :
    Walks heap w (us ++ vs) (r >>= next) := by
  match r, h with
  | .error (.failed _ _), ⟨v, hv, hfail⟩ => exact ⟨v, List.mem_append_left _ hv, hfail⟩
  | .ok w₁, ⟨hprogress, hhandled⟩ =>
    have hr := hnext w₁ hprogress
    change Walks heap w (us ++ vs) (next w₁)
    match next w₁, hr with
    | .error (.failed _ _), ⟨v, hv, hfail⟩ => exact ⟨v, List.mem_append_right _ hv, hfail⟩
    | .ok w₂, ⟨hprogress₂, hhandled₂⟩ =>
      refine ⟨hprogress.trans hprogress₂, fun hinf v hv => ?_⟩
      rcases List.mem_append.mp hv with hv | hv
      · exact hprogress₂.handled (hhandled (hprogress₂.informed hinf) v hv)
      · exact hhandled₂ hinf v hv

theorem foldlM {α : Type} {step : WalkState shapes ν → α → Except (Stop ι) (WalkState shapes ν)}
    {parts : α → List ν} {xs : List α}
    (h : ∀ w', Progress heap w w' → ∀ x ∈ xs, Walks heap w' (parts x) (step w' x)) :
    Walks heap w (xs.flatMap parts) (xs.foldlM step w) := by
  induction xs generalizing w with
  | nil => exact nil w
  | cons x xs ih =>
    rw [List.foldlM_cons, List.flatMap_cons]
    refine (h w .refl x List.mem_cons_self).bind fun w' hw' => ih fun w'' hw'' y hy => ?_
    exact h w'' (hw'.trans hw'') y (List.mem_cons_of_mem x hy)

end Walks

section Run

variable [DecidableEq ι] [Fintype ι] {w : WalkState shapes ν}

theorem progress_query (t : ι) (w : WalkState shapes ν) : Progress heap w (w.query t).2 where
  visited := subset_rfl
  asked := List.prefix_append _ _
  reached _ _ hu hnot := absurd hu hnot

/-- A shape the query says has no invariants below it has none, if the query could be
answered. -/
theorem not_declaresBelow_of_query {t : ι} (hquery : (w.query t).1 = false)
    {w' : WalkState shapes ν} (hw' : Progress heap (w.query t).2 w') (hinf : w'.Informed) :
    ¬ DeclaresBelow shapes t := by
  intro hbelow
  have hq : Query.Answerable shapes ⟨t, w.subtrees.memo⟩ :=
    hinf _ (hw'.asked.subset (List.mem_append_right _ List.mem_cons_self))
  have := (w.subtrees.query_eq_true_iff t).mpr (hq hbelow)
  exact Bool.false_ne_true (hquery.symm.trans this)

/-- Skipping values of a shape that the query says has nothing below it. -/
theorem Walks.skip {t : ι} {vs : List ν} (hquery : (w.query t).1 = false)
    (hvs : ∀ v ∈ vs, heap.shapeOf v = t) : Walks heap w vs (.ok (w.query t).2) := by
  refine ⟨progress_query t w, fun hinf v hv => .inr ?_⟩
  rw [hvs v hv]
  have hrefl : Progress heap (w.query t).2 (w.query t).2 := .refl
  exact not_declaresBelow_of_query hquery hrefl hinf

variable {validate : ν → Walker shapes ν}

theorem validateField_walks
    (h : ∀ v w', Progress heap w w' → Walks heap w' [v] (validate v w')) {p : ι × ν}
    (hp : heap.shapeOf p.2 = p.1) : Walks heap w [p.2] (validateField validate w p) := by
  unfold validateField
  cases hquery : (w.query p.1).1 with
  | false => simpa [hquery] using Walks.skip hquery (by simpa using hp)
  | true =>
    simpa [hquery] using (h p.2 _ (progress_query p.1 w)).of_progress (progress_query p.1 w)

theorem validateElems_walks
    (h : ∀ v w', Progress heap w w' → Walks heap w' [v] (validate v w')) {t : ι} {vs : List ν}
    (hvs : ∀ v ∈ vs, heap.shapeOf v = t) : Walks heap w vs (validateElems validate t vs w) := by
  unfold validateElems
  cases hquery : (w.query t).1 with
  | false => simpa [hquery] using Walks.skip hquery hvs
  | true =>
    have hwalks : Walks heap (w.query t).2 (vs.flatMap fun v => [v])
        (vs.foldlM (fun w v => validate v w) (w.query t).2) :=
      .foldlM fun w' hw' v _ => h v w' ((progress_query t w).trans hw')
    simpa [hquery] using hwalks.of_progress (progress_query t w)

/-- `b` is what an earlier query answered for the shape `t`. -/
def Known (heap : Heap shapes ν) (w : WalkState shapes ν) (t : ι) (b : Bool) : Prop :=
  b = false → ∀ w', Progress heap w w' → w'.Informed → ¬ DeclaresBelow shapes t

omit [DecidableEq ι] [Fintype ι] in
theorem Known.of_progress {t : ι} {b : Bool} (hknown : Known heap w t b)
    {w₁ : WalkState shapes ν} (hw : Progress heap w w₁) : Known heap w₁ t b :=
  fun hb w' hw' => hknown hb w' (hw.trans hw')

omit [DecidableEq ι] [Fintype ι] in
theorem Known.walks {t : ι} {b : Bool} (hknown : Known heap w t b) {v : ν}
    (hv : heap.shapeOf v = t) (h : Walks heap w [v] (validate v w)) :
    Walks heap w [v] (if b then validate v w else .ok w) := by
  cases b with
  | true => exact h
  | false =>
    refine ⟨.refl, fun hinf u hu => .inr ?_⟩
    rw [List.mem_singleton.mp hu, hv]
    exact hknown rfl w .refl hinf

theorem known_query (t : ι) (w : WalkState shapes ν) :
    Known heap (w.query t).2 t (w.query t).1 :=
  fun hquery _ hw' hinf => not_declaresBelow_of_query hquery hw' hinf

omit [DecidableEq ι] [Fintype ι] in
theorem validateEntry_walks
    (h : ∀ v w', Progress heap w w' → Walks heap w' [v] (validate v w')) {k v : ι}
    {keyHas valueHas : Bool} (hkey : Known heap w k keyHas) (hvalue : Known heap w v valueHas)
    {entry : ν × ν} (hentry : heap.shapeOf entry.1 = k ∧ heap.shapeOf entry.2 = v) :
    Walks heap w [entry.1, entry.2] (validateEntry validate keyHas valueHas w entry) := by
  have hfirst := hkey.walks hentry.1 (h entry.1 w .refl)
  have hsecond (w') (hw' : Progress heap w w') :=
    (hvalue.of_progress hw').walks hentry.2 (h entry.2 w' hw')
  exact hfirst.bind hsecond

theorem validateMap_walks
    (h : ∀ v w', Progress heap w w' → Walks heap w' [v] (validate v w')) {k v : ι}
    {entries : List (ν × ν)}
    (hentries : ∀ e ∈ entries, heap.shapeOf e.1 = k ∧ heap.shapeOf e.2 = v) :
    Walks heap w (entries.flatMap fun e => [e.1, e.2]) (validateMap validate k v entries w) := by
  have hw₁ : Progress heap w (w.query k).2 := progress_query k w
  have hw₂ : Progress heap (w.query k).2 ((w.query k).2.query v).2 := progress_query v _
  have hkey := (known_query k w).of_progress hw₂
  have hvalue : Known heap ((w.query k).2.query v).2 v _ := known_query v (w.query k).2
  refine .of_progress (hw₁.trans hw₂) ?_
  unfold validateMap
  dsimp only
  split_ifs with hhas
  · exact .foldlM fun w' hw' e he => validateEntry_walks
      (fun v w'' hw'' => h v w'' (((hw₁.trans hw₂).trans hw').trans hw''))
      (hkey.of_progress hw') (hvalue.of_progress hw') (hentries e he)
  · rw [Bool.not_eq_true, Bool.or_eq_false_iff] at hhas
    refine ⟨.refl, fun hinf u hu => .inr ?_⟩
    obtain ⟨e, he, hu⟩ := List.mem_flatMap.mp hu
    rcases List.mem_pair.mp hu with rfl | rfl
    · rw [(hentries e he).1]
      exact hkey hhas.1 _ .refl hinf
    · rw [(hentries e he).2]
      exact hvalue hhas.2 _ .refl hinf

theorem validateFields_walks
    (h : ∀ v w', Progress heap w w' → Walks heap w' [v] (validate v w')) {fields : List ι}
    {vs : List ν} (htyped : ∀ p ∈ fields.zip vs, heap.shapeOf p.2 = p.1) :
    Walks heap w ((fields.zip vs).map Prod.snd) (validateFields validate fields vs w) := by
  rw [List.map_eq_flatMap]
  exact .foldlM fun w' hw' p hp =>
    validateField_walks (fun v w'' hw'' => h v w'' (hw'.trans hw'')) (htyped p hp)

theorem validateDef_walks
    (h : ∀ v w', Progress heap w w' → Walks heap w' [v] (validate v w')) {d : Def ι}
    {content : Content ν} (htyped : ∀ p ∈ content.defParts d, heap.shapeOf p.2 = p.1) :
    Walks heap w ((content.defParts d).map Prod.snd) (validateDef validate d content w) := by
  have helems (t : ι) (vs : List ν) (hvs : ∀ p ∈ vs.map (t, ·), heap.shapeOf p.2 = p.1) :
      Walks heap w ((vs.map (t, ·)).map Prod.snd) (validateElems validate t vs w) := by
    have hshapes (v) (hv : v ∈ vs) := hvs (t, v) (List.mem_map_of_mem hv)
    simpa [List.map_map, Function.comp_def] using validateElems_walks h hshapes
  unfold Content.defParts at htyped ⊢
  unfold validateDef
  split
  · exact helems _ _ htyped
  · exact helems _ _ htyped
  · exact helems _ _ htyped
  · next k v entries =>
    have hentries : ∀ e ∈ entries, heap.shapeOf e.1 = k ∧ heap.shapeOf e.2 = v := fun e he =>
      ⟨htyped (k, e.1) (List.mem_flatMap.mpr ⟨e, he, by simp⟩),
        htyped (v, e.2) (List.mem_flatMap.mpr ⟨e, he, by simp⟩)⟩
    simpa [List.map_flatMap] using validateMap_walks h hentries
  · exact helems _ _ htyped
  · exact validateField_walks h (htyped _ List.mem_cons_self)
  · exact h _ w .refl
  · exact h _ w .refl
  · exact validateField_walks h (htyped _ List.mem_cons_self)
  · exact .nil w

theorem validateParts_walks
    (h : ∀ v w', Progress heap w w' → Walks heap w' [v] (validate v w')) {shape : Shape ι}
    {content : Content ν} (htyped : ∀ p ∈ content.parts shape, heap.shapeOf p.2 = p.1) :
    Walks heap w ((content.parts shape).map Prod.snd) (validateParts validate shape content w) := by
  unfold Content.parts at htyped ⊢
  unfold validateParts
  revert htyped
  cases shape.ty with
  | user ty =>
    intro htyped
    cases ty with
    | struct st =>
      cases content with
      | struct vs => exact validateFields_walks h htyped
      | _ => exact .nil w
    | enum en =>
      cases content with
      | enum i vs => exact validateFields_walks h htyped
      | _ => exact .nil w
    | _ => exact validateDef_walks h htyped
  | _ =>
    intro htyped
    exact validateDef_walks h htyped

end Run

section Complete

variable [DecidableEq ι] [Fintype ι] [DecidableEq ν] [Fintype ν]

omit [DecidableEq ι] [Fintype ι] [Fintype ν] in
/-- A value is entered: it satisfies its invariants, and the walk goes over its parts. -/
theorem Walks.enter {w : WalkState shapes ν} {v : ν} {r : Except (Stop ι) (WalkState shapes ν)}
    (hv : v ∉ w.visited) (hsat : heap.Satisfied v)
    (h : Walks heap { w with visited := insert v w.visited }
      (((heap.content v).parts (shapes (heap.shapeOf v))).map Prod.snd) r) :
    Walks heap w [v] r := by
  match r, h with
  | .error (.failed _ _), ⟨u, hu, x, hnested, hfail⟩ =>
    exact ⟨v, List.mem_cons_self, x, hnested.head hu, hfail⟩
  | .ok w', ⟨hprogress, hparts⟩ =>
    have hmem : v ∈ w'.visited := hprogress.visited (Finset.mem_insert_self v _)
    refine ⟨⟨fun u hu => hprogress.visited (Finset.mem_insert_of_mem hu), hprogress.asked,
      fun hinf u hu hnot => ?_⟩, fun _ u hu => .inl (List.mem_singleton.mp hu ▸ hmem)⟩
    by_cases huv : u = v
    · subst huv
      exact ⟨hsat, fun x hx => hparts hinf x hx⟩
    · exact hprogress.reached hinf u hu (by simp [huv, hnot])

/-- The fuel covers every value that has not been visited. -/
def Covers (w : WalkState shapes ν) (n : ℕ) : Prop := Fintype.card ν < n + w.visited.card

omit [DecidableEq ι] [Fintype ι] [DecidableEq ν] in
theorem Covers.of_progress {w w' : WalkState shapes ν} {n : ℕ} (hn : Covers w n)
    (hw : Progress heap w w') : Covers w' n :=
  lt_of_lt_of_le hn (Nat.add_le_add_left (Finset.card_le_card hw.visited) n)

theorem validateInvariantsUpTo_walks {n : ℕ} {v : ν} {w : WalkState shapes ν}
    (hn : Covers w n) : Walks heap w [v] (validateInvariantsUpTo heap n v w) := by
  induction n generalizing v w with
  | zero =>
    have := Finset.card_le_univ w.visited
    unfold Covers at hn
    omega
  | succ n ih =>
    rw [validateInvariantsUpTo]
    refine .of_progress (progress_query (heap.shapeOf v) w) ?_
    have hclean : Known heap _ _ _ := known_query (heap.shapeOf v) w
    have hcovers : Covers (w.query (heap.shapeOf v)).2 (n + 1) := hn
    revert hclean hcovers
    dsimp only
    generalize w.query (heap.shapeOf v) = answer
    obtain ⟨hasInvariants, w⟩ := answer
    intro hclean hcovers
    cases hasInvariants with
    | false =>
      refine ⟨.refl, fun hinf u hu => .inr ?_⟩
      rw [List.mem_singleton.mp hu]
      exact hclean rfl w .refl hinf
    | true =>
      simp only [Bool.not_true, Bool.false_eq_true, if_false]
      split_ifs with hvisited
      · exact ⟨.refl, fun _ u hu => .inl (List.mem_singleton.mp hu ▸ hvisited)⟩
      · have hdescent : heap.Satisfied v → Walks heap w [v]
            (validateParts (validateInvariantsUpTo heap n) (shapes (heap.shapeOf v))
              (heap.content v) { w with visited := insert v w.visited }) := by
          intro hsat
          have hcovers' : Covers { w with visited := insert v w.visited } n := by
            have hcard := Finset.card_insert_of_notMem hvisited
            unfold Covers at hcovers ⊢
            dsimp only at hcovers ⊢
            omega
          exact .enter hvisited hsat <| validateParts_walks
            (fun u w' hw' => ih (hcovers'.of_progress hw')) (heap.typed v)
        cases hcall : heap.callInvariants v with
        | none => exact hdescent fun message h => by simp [hcall] at h
        | some r =>
          cases r with
          | ok => exact hdescent fun message h => by simp [hcall] at h
          | error message => exact ⟨v, List.mem_cons_self, v, .refl, rfl, hcall⟩

theorem validateInvariants_walks (root : ν) (c : SubtreeCache shapes) :
    Walks heap ⟨∅, c.newWalk, []⟩ [root] (validateInvariants heap root c) :=
  validateInvariantsUpTo_walks (by simp [Covers])

variable (heap) in
/-- The queries a successful validation makes, each with the memo it meets. -/
def queries (root : ν) (c : SubtreeCache shapes) : List (Query ι) :=
  match validateInvariants heap root c with
  | .ok w => w.asked
  | .error _ => []

/-- A validation that succeeds, with every query answerable, has missed nothing. -/
theorem satisfied_of_validateInvariants {root : ν} {c : SubtreeCache shapes}
    {w : WalkState shapes ν} (hok : validateInvariants heap root c = .ok w)
    (hinf : w.Informed) {v : ν} (hv : heap.Nested root v) : heap.Satisfied v := by
  obtain ⟨hprogress, hroot⟩ := hok ▸ validateInvariants_walks root c
  have hreached {u : ν} (hu : u ∈ w.visited) := hprogress.reached hinf u hu (Finset.notMem_empty u)
  have hhandled : heap.Handled w v := by
    induction hv with
    | refl => exact hroot hinf root List.mem_cons_self
    | tail _ hpart ih =>
      rcases ih with hmem | hclean
      · exact (hreached hmem).2 _ hpart
      · exact .inr fun hbelow => hclean (declaresBelow_of_partOf hpart hbelow)
  rcases hhandled with hmem | hclean
  · exact (hreached hmem).1
  · intro message hcall
    have hdecl := heap.declared v (by simp [hcall])
    exact hclean ⟨_, .refl, hdecl⟩

end Complete

end Spec

end Facet.Reflect
