import Facet.Path.Visits

/-!
# Where walk and replay agree

The main result says on which shape graphs every path handed to a visitor replays: sets
and n-dimensional arrays are walked by an index step that the replay does not know, the
payloads of a result by variant and field steps that it looks up among variants a result
does not have, and an index beyond `u32` names another entry.
-/

namespace Facet.Path

variable {ι : Type}

section Forms

variable {shape : Shape ι}

theorem struct_form {ty : StructType ι} (h : form shape = .struct ty) :
    shape.ty = .user (.struct ty) := by
  grind [form, definitionForm]

theorem enum_form {ty : EnumType ι} (h : form shape = .enum ty) :
    shape.ty = .user (.enum ty) := by
  grind [form, definitionForm]

theorem option_form {t : ι} (h : form shape = .option t) :
    getOptionInnerShape shape = some t := by
  grind [form, definitionForm, getOptionInnerShape]

theorem sequence_form {t : ι} (h : form shape = .sequence t) :
    getElementShape shape = some t := by
  grind [form, definitionForm, getElementShape]

theorem collection_form {t : ι} (h : form shape = .collection t) :
    getElementShape shape = none := by
  grind [form, definitionForm, getElementShape]

theorem map_form {k v : ι} (h : form shape = .map k v) : shape.def = .map k v := by
  grind [form, definitionForm]

theorem pointee_form {t : ι} (h : form shape = .pointee t) :
    getPointerInnerShape shape = some t := by
  grind [form, definitionForm, getPointerInnerShape]

theorem inner_form {t : ι} (h : form shape = .inner t) : shape.inner = some t := by
  grind [form, definitionForm]

end Forms

/-- The descents out of a shape can be replayed: it is not walked as a set, an array of
several dimensions or a result, and cut to `u32` the index of a field (of a variant) still
names that field. -/
def Replayable (shape : Shape ι) : Prop :=
  match form shape with
  | .collection _ | .result _ _ => False
  | .struct ty => ∀ i f, ty.fields[i]? = some f → ty.fields[asU32 i]? = some f
  | .enum ty => ∀ vi v i f, ty.variants[vi]? = some v → v.data.fields[i]? = some f →
      (ty.variants[asU32 vi]?).bind (fun v => v.data.fields[asU32 i]?) = some f
  | _ => True

section Hops

variable {S : Shapes ι} {a : ι}

theorem hops_step_iff {step : PathStep} {t : ι} (hstep : ∀ idx, step ≠ .field idx) :
    Hops S a { step, shape := t } ↔ ∃ d, advance S ⟨a, none⟩ step = some d ∧ d.shape = t := by
  constructor
  · intro h
    obtain ⟨d, hd, hs, -⟩ := h.follows
    exact ⟨d, hd, hs⟩
  · rintro ⟨d, hd, hs⟩
    exact ⟨⟨d, hd, hs, trivial⟩, fun idx h => absurd h (hstep idx)⟩

/-- A descent through a field is replayed exactly when its index names the field. -/
theorem hops_field_iff {variant : Option ℕ} {idx : ℕ} {f : Field ι} :
    Hops S a { variant, step := .field idx, shape := f.shape, field := some f }
      ↔ getFieldWithVariant (S a) idx variant = some f := by
  constructor
  · intro h
    obtain ⟨g, hg, hget⟩ := h.leaf idx rfl
    obtain rfl : f = g := by simpa using hg
    exact hget
  · intro h
    have hadvance : advance S ⟨a, variant⟩ (.field idx) = some ⟨f.shape, none⟩ := by
      simp [advance, getFieldShapeWithVariant, h]
    refine ⟨?_, fun i hi => ?_⟩
    · cases variant with
      | none => exact ⟨_, hadvance, rfl, trivial⟩
      | some vi => exact ⟨⟨a, some vi⟩, rfl, rfl, _, hadvance, rfl, trivial⟩
    · obtain rfl : idx = i := by simpa using hi
      exact ⟨f, rfl, h⟩

theorem hops_children_struct {ty : StructType ι} (h : form (S a) = .struct ty) :
    (∀ c ∈ children (S a), Hops S a c)
      ↔ ∀ i f, ty.fields[i]? = some f → ty.fields[asU32 i]? = some f := by
  have hget : ∀ idx, getFieldWithVariant (S a) idx none = ty.fields[idx]? := by
    intro idx
    simp [getFieldWithVariant, struct_form h]
  simp only [children, h, Form.children, mem_fieldChildren]
  constructor
  · intro hops i f hf
    rw [← hget]
    exact hops_field_iff.mp (hops _ ⟨i, f, hf, rfl⟩)
  · rintro hfields c ⟨i, f, hf, rfl⟩
    rw [hops_field_iff, hget]
    exact hfields i f hf

theorem hops_children_enum {ty : EnumType ι} (h : form (S a) = .enum ty) :
    (∀ c ∈ children (S a), Hops S a c)
      ↔ ∀ vi v i f, ty.variants[vi]? = some v → v.data.fields[i]? = some f →
        (ty.variants[asU32 vi]?).bind (fun v => v.data.fields[asU32 i]?) = some f := by
  have hget : ∀ idx vi, getFieldWithVariant (S a) idx (some vi)
      = (ty.variants[vi]?).bind fun v => v.data.fields[idx]? := by
    intro idx vi
    simp [getFieldWithVariant, enum_form h, bind]
  simp only [children, h, mem_enum_children]
  constructor
  · intro hops vi v i f hv hf
    rw [← hget]
    exact hops_field_iff.mp (hops _ ⟨vi, v, i, f, hv, hf, rfl⟩)
  · rintro hfields c ⟨vi, v, i, f, hv, hf, rfl⟩
    rw [hops_field_iff, hget]
    exact hfields vi v i f hv hf

/-- Whether the descents out of a shape can be replayed is decided by its form. -/
theorem hops_children_iff : (∀ c ∈ children (S a), Hops S a c) ↔ Replayable (S a) := by
  unfold Replayable
  cases hform : form (S a) with
  | struct ty => exact hops_children_struct hform
  | enum ty => exact hops_children_enum hform
  | collection t =>
    simp [children, hform, Form.children, hops_step_iff, advance, collection_form hform]
  | result t e =>
    -- no field stands behind the field step into a payload
    simp only [children, hform, Form.children, iff_false]
    intro h
    obtain ⟨f, hf, -⟩ := (h _ (List.mem_cons_self ..)).leaf 0 rfl
    simp at hf
  | option t => simp [children, hform, Form.children, hops_step_iff, advance, option_form hform]
  | sequence t =>
    simp [children, hform, Form.children, hops_step_iff, advance, sequence_form hform]
  | map k v =>
    simp [children, hform, Form.children, hops_step_iff, advance, getMapKeyShape,
      getMapValueShape, map_form hform]
  | pointee t => simp [children, hform, Form.children, hops_step_iff, advance, pointee_form hform]
  | inner t => simp [children, hform, Form.children, hops_step_iff, advance, inner_form hform]
  | leaf => simp [children, hform, Form.children]

end Hops

section Walks

variable {S : Shapes ι}

/-- Below a root that only reaches replayable shapes, every trail is followed. -/
theorem Descends.follows {a : ι} {trail : Trail ι} (hd : Descends S a trail)
    (h : ∀ s, Reachable S a s → Replayable (S s)) :
    Follows S ⟨a, none⟩ (Trail.marks a trail) := by
  induction trail generalizing a with
  | nil => trivial
  | cons c cs ih =>
    obtain ⟨hc, hcs⟩ := hd
    have hhop := hops_children_iff.mpr (h a (Reachable.refl a)) c hc
    have hnav := navigate_descent (children_step hc) hhop.follows
    rw [Trail.marks, follows_append, Child.marks_fst]
    refine ⟨hhop.follows, ?_⟩
    intro d hd
    obtain rfl : _ = d := by simpa [hnav] using hd
    exact ih hcs (fun s hs => h s (Reachable.head hc hs))

theorem Descends.agrees {root : ι} {trail : Trail ι} (hd : Descends S root trail)
    (h : ∀ s, Reachable S root s → Replayable (S s)) : Agrees S root trail := by
  apply agrees_of_follows hd (hd.follows h)
  rintro pre c rfl
  have hpre := Descends.of_append hd
  exact hops_children_iff.mpr (h _ hpre.reachable) c (Descends.last_mem hd)

variable [DecidableEq ι]

/-- Whatever the visitor decides, every path it is handed replays, exactly when the root
reaches replayable shapes only. -/
theorem walkShape_agrees_iff (S : Shapes ι) (root : ι) :
    (∀ (σ : Type) (visitor : Visitor ι σ) (fuel : ℕ) (state : σ),
        ∀ trail ∈ (walkShape S visitor fuel root state).2.entered, Agrees S root trail)
      ↔ ∀ s, Reachable S root s → Replayable (S s) := by
  constructor
  · intro h s hs
    apply hops_children_iff.mp
    intro c hc
    obtain ⟨ext, hext, rfl, hentered⟩ := hs.entered
    obtain ⟨n, fuel, htrail⟩ := hentered c hc
    have hagrees := h Unit (depthVisitor n) fuel () _ htrail
    exact hops_of_agrees (hext.append ⟨hc, trivial⟩) hagrees
  · intro h σ visitor fuel state trail htrail
    exact (walkShape_descends htrail).agrees h

end Walks

inductive Settings
  | root
  | tags
  | text
  deriving DecidableEq

/-- `struct Settings { tags: BTreeSet<String> }`. -/
def settings : Shapes Settings
  | .root => { ty := .user (.struct ⟨.struct, [{ name := "tags", shape := .tags }]⟩)
               «def» := .undefined }
  | .tags => { ty := .user .opaqueTy, «def» := .set .text }
  | .text => { ty := .user .opaqueTy, «def» := .scalar }

/-- `tags[0]`, the trail of the set's element. -/
def tagsElement : Trail Settings :=
  [{ step := .field 0, shape := .tags, field := some { name := "tags", shape := .tags } },
    { step := .index 0, shape := .text }]

/-- A visitor that recurses is handed the element of the set, and the replay of its path
never gets there. -/
theorem settings_not_agrees :
    ¬ ∀ (σ : Type) (visitor : Visitor Settings σ) (fuel : ℕ) (state : σ),
        ∀ trail ∈ (walkShape settings visitor fuel .root state).2.entered,
          Agrees settings .root trail := by
  intro h
  have hentered : tagsElement ∈ (walkShape settings (depthVisitor 4) 5 .root ()).2.entered :=
    List.mem_of_getElem? (i := 2) rfl
  have hagrees := h Unit (depthVisitor 4) 5 () tagsElement hentered
  have hreplay := hagrees.navigates 2 (by decide)
  revert hreplay
  decide

end Facet.Path
