import Facet.Poke.Effect

/-!
# Values of their shapes

A value fits its shape when it is initialised, holds what the definition of the shape says,
and, seen as a struct or an enum, has its fields. Fitting looks at the label of a value and
the shapes of what is directly below it only, so replacing a part by another value of the
same shape keeps it.
-/

namespace Facet.Poke

variable {ι : Type}

namespace Value

def childShapes (v : Value ι) : List ι := v.children.map shape

end Value

namespace Runtime

variable (R : Runtime ι)

def DefFits (v : Value ι) : Prop :=
  match Shape.def (R.shapes v.shape) with
  | .list t | .slice t => v.head = .list ∧ ∀ t' ∈ v.childShapes, t' = t
  | .array t n => v.head = .list ∧ v.childShapes = List.replicate n t
  | .map _ _ => v.head = .map
  | .set t => v.head = .set ∧ ∀ t' ∈ v.childShapes, t' = t
  | .ndArray t => v.head = .ndArray ∧ ∀ t' ∈ v.childShapes, t' = t
  | .option t => v.head = .none ∧ v.childShapes = [] ∨ v.head = .some ∧ v.childShapes = [t]
  | .result t e => v.head = .ok ∧ v.childShapes = [t] ∨ v.head = .err ∧ v.childShapes = [e]
  | .dynamicValue =>
    (∃ content, v.head = .dynamic content) ∧ (∀ t ∈ v.childShapes, t = v.shape) ∧
      v.keys.length ≤ v.childShapes.length
  | .pointer _ | .scalar | .undefined => v.keys = []

def TyFits (v : Value ι) : Prop :=
  match (R.shapes v.shape).ty with
  | .user (.struct structType) => v.childShapes = structType.fields.map Field.shape
  | .user (.enum enumType) =>
    ∃ index variant, R.variantAt v enumType = some index ∧
      enumType.variants[index]? = some variant ∧
        v.childShapes = variant.data.fields.map Field.shape
  | _ => True

structure Fits (v : Value ι) : Prop where
  initialised : v.Initialised
  byDef : R.DefFits v
  byTy : R.TyFits v

/-- The value and everything in it fit their shapes. -/
def Sound (v : Value ι) : Prop := PlacedTree.Everywhere R.Fits v

theorem keys_eq_of_label {v w : Value ι} (h : v.label = w.label) : v.keys = w.keys := by
  have hhead : v.head = w.head := congrArg Label.head h
  rw [Value.keys, Value.keys, hhead]

variable {R}

theorem Fits.congr {v w : Value ι} (hv : R.Fits v) (hlabel : w.label = v.label)
    (hchildren : w.childShapes = v.childShapes) : R.Fits w := by
  have hshape : w.shape = v.shape := congrArg Label.shape hlabel
  have hhead : w.head = v.head := congrArg Label.head hlabel
  have hkeys := keys_eq_of_label hlabel
  have hvariant : R.variantAt w = R.variantAt v := by
    funext enumType
    rw [variantAt, variantAt, hshape, hhead]
  constructor
  · have hinit := hv.initialised
    rw [Value.Initialised] at hinit ⊢
    rwa [hhead]
  · have hdef := hv.byDef
    rw [DefFits] at hdef ⊢
    rwa [hshape, hhead, hkeys, hchildren]
  · have hty := hv.byTy
    rw [TyFits] at hty ⊢
    rwa [hshape, hvariant, hchildren]

theorem Fits.keys_le {v : Value ι} (hv : R.Fits v) : v.keys.length ≤ v.children.length := by
  have hdef := hv.byDef
  rw [DefFits] at hdef
  have hno : (∀ content, v.head ≠ .dynamic content) → v.keys.length ≤ v.children.length := by
    intro hhead
    rw [Value.keys]
    cases hcase : v.head with
    | dynamic content => exact absurd hcase (hhead content)
    | _ => exact Nat.zero_le _
  cases hcase : Shape.def (R.shapes v.shape) with
  | dynamicValue =>
    rw [hcase] at hdef
    simpa [Value.childShapes] using hdef.2.2
  | pointer pointee =>
    rw [hcase] at hdef
    simp [hdef]
  | scalar =>
    rw [hcase] at hdef
    simp [hdef]
  | undefined =>
    rw [hcase] at hdef
    simp [hdef]
  | map k x =>
    rw [hcase] at hdef
    exact hno (by simp [hdef])
  | option t =>
    rw [hcase] at hdef
    apply hno
    rcases hdef with ⟨hhead, -⟩ | ⟨hhead, -⟩ <;> simp [hhead]
  | result t e =>
    rw [hcase] at hdef
    apply hno
    rcases hdef with ⟨hhead, -⟩ | ⟨hhead, -⟩ <;> simp [hhead]
  | _ =>
    rw [hcase] at hdef
    exact hno (by simp [hdef.1])

theorem Sound.whole {v : Value ι} (h : R.Sound v) : v.Whole := by
  apply PlacedTree.Everywhere.forall_labels
  intro q s hs
  exact (h q s hs).initialised

theorem sound_iff {v : Value ι} : R.Sound v ↔ R.Fits v ∧ ∀ c ∈ v.children, R.Sound c :=
  PlacedTree.Everywhere.iff_children

theorem sound_node {label : Label ι} {children : List (Value ι)} :
    R.Sound (.node label children) ↔
      R.Fits (.node label children) ∧ ∀ c ∈ children, R.Sound c :=
  PlacedTree.Everywhere.iff_children

theorem childShapes_put {v old x : Value ι} {p : Place} (hp : p ≠ [])
    (h : PlacedTree.get? p v = some old) (hx : x.shape = old.shape) :
    Value.childShapes (PlacedTree.put p x v) = v.childShapes := by
  cases p with
  | nil => exact absurd rfl hp
  | cons i p =>
    obtain ⟨c, hc, hold⟩ := Option.bind_eq_some_iff.mp h
    apply List.ext_getElem?
    intro j
    rw [Value.childShapes, Value.childShapes, PlacedTree.put, PlacedTree.children_node,
      List.getElem?_map, List.getElem?_map, List.getElem?_modify]
    by_cases hij : i = j
    · subst hij
      have hsame : Value.shape (PlacedTree.put p x c) = Value.shape c := by
        cases p with
        | nil =>
          obtain rfl : c = old := Option.some.inj hold
          exact hx
        | cons k p => rfl
      simp [hc, hsame]
    · simp [hij]

theorem Sound.put {v old x : Value ι} {p : Place} (hv : R.Sound v)
    (h : PlacedTree.get? p v = some old) (hx : R.Sound x) (hshape : x.shape = old.shape) :
    R.Sound (PlacedTree.put p x v) := by
  apply PlacedTree.Everywhere.put hv hx
  intro q r s hp hr hs
  rw [hp, PlacedTree.get?_append, hs] at h
  exact (hv q s hs).congr (PlacedTree.label_put hr x s) (childShapes_put hr h hshape)

theorem tyFits_of_byDefOnly {v : Value ι} (h : ByDefOnly (R.shapes v.shape)) : R.TyFits v := by
  rw [ByDefOnly] at h
  rw [TyFits]
  cases hty : (R.shapes v.shape).ty with
  | user userType =>
    rw [hty] at h
    cases userType with
    | struct structType => exact h.elim
    | enum enumType => exact h.elim
    | union => exact trivial
    | opaqueTy => exact trivial
  | _ => exact trivial

theorem exists_findIdx?_of_find? {α : Type} {f : α → Bool} {xs : List α} {a : α}
    (h : xs.find? f = some a) : ∃ i, xs.findIdx? f = some i ∧ xs[i]? = some a := by
  induction xs with
  | nil => cases h
  | cons x xs ih =>
    rw [List.find?_cons] at h
    rw [List.findIdx?_cons]
    cases hx : f x with
    | true =>
      rw [hx] at h
      obtain rfl : x = a := by simpa using h
      exact ⟨0, by simp⟩
    | false =>
      rw [hx] at h
      obtain ⟨i, hi, ha⟩ := ih h
      exact ⟨i + 1, by simp [hi], by simpa using ha⟩

theorem tyFits_of_option {v : Value ι} {t : ι} (hdef : Shape.def (R.shapes v.shape) = .option t)
    (hheld : v.head = .none ∧ v.childShapes = [] ∨ v.head = .some ∧ v.childShapes = [t]) :
    R.TyFits v := by
  have hviews := R.viewsAgree v.shape
  rw [ViewsAgree, hdef] at hviews
  rw [TyFits]
  cases hty : (R.shapes v.shape).ty with
  | user userType =>
    rw [hty] at hviews
    cases userType with
    | struct structType => exact hviews.elim
    | enum enumType =>
      obtain ⟨-, hnone, hsome⟩ := hviews
      have hfields : ∃ fields, optionFields enumType (decide (v.head = .some)) = some fields ∧
          v.childShapes = fields.map Field.shape := by
        rcases hheld with ⟨hhead, hchildren⟩ | ⟨hhead, hchildren⟩
        · exact ⟨[], by simpa [hhead] using hnone, hchildren⟩
        · obtain ⟨fields, hf, hshapes⟩ := Option.map_eq_some_iff.mp hsome
          exact ⟨fields, by simpa [hhead] using hf, by rw [hchildren, ← hshapes]⟩
      obtain ⟨fields, hf, hshapes⟩ := hfields
      obtain ⟨variant, hvariant, rfl⟩ := Option.map_eq_some_iff.mp hf
      obtain ⟨index, hindex, hget⟩ := exists_findIdx?_of_find? hvariant
      refine ⟨index, variant, ?_, hget, hshapes⟩
      rw [variantAt, hdef]
      exact hindex
    | union => exact trivial
    | opaqueTy => exact trivial
  | _ => exact trivial

theorem fits_option {v : Value ι} {t : ι} (hdef : Shape.def (R.shapes v.shape) = .option t)
    (hheld : v.head = .none ∧ v.childShapes = [] ∨ v.head = .some ∧ v.childShapes = [t]) :
    R.Fits v := by
  constructor
  · rw [Value.Initialised]
    rcases hheld with ⟨hhead, -⟩ | ⟨hhead, -⟩ <;> simp [hhead]
  · rw [DefFits, hdef]
    exact hheld
  · exact tyFits_of_option hdef hheld

theorem fits_result {v : Value ι} {t e : ι} (hdef : Shape.def (R.shapes v.shape) = .result t e)
    (hheld : v.head = .ok ∧ v.childShapes = [t] ∨ v.head = .err ∧ v.childShapes = [e]) :
    R.Fits v := by
  have hviews := R.viewsAgree v.shape
  rw [ViewsAgree, hdef] at hviews
  constructor
  · rw [Value.Initialised]
    rcases hheld with ⟨hhead, -⟩ | ⟨hhead, -⟩ <;> simp [hhead]
  · rw [DefFits, hdef]
    exact hheld
  · exact tyFits_of_byDefOnly hviews

theorem fits_dynamic {v : Value ι} (hdef : Shape.def (R.shapes v.shape) = .dynamicValue)
    {content : DynContent} (hhead : v.head = .dynamic content)
    (hchildren : ∀ t ∈ v.childShapes, t = v.shape)
    (hkeys : v.keys.length ≤ v.childShapes.length) : R.Fits v := by
  have hviews := R.viewsAgree v.shape
  rw [ViewsAgree, hdef] at hviews
  constructor
  · simp [Value.Initialised, hhead]
  · rw [DefFits, hdef]
    exact ⟨⟨content, hhead⟩, hchildren, hkeys⟩
  · exact tyFits_of_byDefOnly hviews

end Runtime

end Facet.Poke
