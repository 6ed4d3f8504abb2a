import Facet.Path.Walk

/-!
# Replaying the walker's paths

A trail agrees with the replay when following its path from the root stands, after every
step, at the shape where the walker stood. Whether it does is decided descent by descent,
and whether the descents out of a shape can be replayed is decided by the form of that
shape alone.
-/

namespace Facet.Path

variable {ι : Type}

/-- The steps of a descent out of `a`, each with the shape the walker stands at after it:
pushing a variant does not move it. -/
def Child.marks (a : ι) (c : Child ι) : List (PathStep × ι) :=
  c.variant.toList.map (fun vi => (.variant vi, a)) ++ [(c.step, c.shape)]

def Trail.marks (a : ι) : Trail ι → List (PathStep × ι)
  | [] => []
  | c :: cs => c.marks a ++ Trail.marks c.shape cs

/-- Consecutive descents of the walker, the first one out of `a`. -/
def Descends (S : Shapes ι) : ι → Trail ι → Prop
  | _, [] => True
  | a, c :: cs => c ∈ children (S a) ∧ Descends S c.shape cs

theorem Child.marks_fst (a : ι) (c : Child ι) : (c.marks a).map Prod.fst = c.steps := by
  simp [marks, steps, Function.comp_def]

theorem Trail.marks_fst (a : ι) (trail : Trail ι) :
    (trail.marks a).map Prod.fst = trail.path := by
  induction trail generalizing a with
  | nil => rfl
  | cons c cs ih =>
    simp only [marks, List.map_append, Child.marks_fst, ih]
    rfl

theorem Trail.target_append (a : ι) (pre post : Trail ι) :
    Trail.target a (pre ++ post) = Trail.target (Trail.target a pre) post := by
  induction pre generalizing a with
  | nil => rfl
  | cons c cs ih => exact ih c.shape

theorem Trail.marks_append (a : ι) (pre post : Trail ι) :
    Trail.marks a (pre ++ post) = Trail.marks a pre ++ Trail.marks (Trail.target a pre) post := by
  induction pre generalizing a with
  | nil => rfl
  | cons c cs ih =>
    simp only [List.cons_append, marks, ih, List.append_assoc]
    rfl

theorem Descends.append {S : Shapes ι} {a : ι} {pre post : Trail ι} (hpre : Descends S a pre)
    (hpost : Descends S (Trail.target a pre) post) : Descends S a (pre ++ post) := by
  induction pre generalizing a with
  | nil => exact hpost
  | cons c cs ih => exact ⟨hpre.1, ih hpre.2 hpost⟩

theorem Descends.of_append {S : Shapes ι} {a : ι} {pre post : Trail ι}
    (h : Descends S a (pre ++ post)) : Descends S a pre := by
  induction pre generalizing a with
  | nil => trivial
  | cons c cs ih => exact ⟨h.1, ih h.2⟩

theorem Descends.last_mem {S : Shapes ι} {a : ι} {pre : Trail ι} {c : Child ι}
    (h : Descends S a (pre ++ [c])) : c ∈ children (S (Trail.target a pre)) := by
  induction pre generalizing a with
  | nil => exact h.1
  | cons b bs ih => exact ih h.2

section Agreement

variable (S : Shapes ι)

/-- The path of a trail replays: both replays stand at the walker's shape after every
prefix, and a final field step resolves to the field the walker went through. -/
structure Agrees (root : ι) (trail : Trail ι) : Prop where
  navigates : ∀ n ≤ (Trail.path trail).length,
    (navigate S ⟨root, none⟩ ((Trail.path trail).take n)).map Cursor.shape
      = (root :: (trail.marks root).map Prod.snd)[n]?
  formats : ∀ n ≤ (Trail.path trail).length,
    some (formatSteps S ⟨"", ⟨root, none⟩⟩ ((Trail.path trail).take n)).cursor.shape
      = (root :: (trail.marks root).map Prod.snd)[n]?
  leaf : ∀ idx, (Trail.path trail).getLast? = some (.field idx) →
    ∃ c f, trail.getLast? = some c ∧ c.field = some f ∧
      resolveLeafField S root (Trail.path trail) = some f

/-- The replay takes every step and stands at the marked shape after it. -/
def Follows : Cursor ι → List (PathStep × ι) → Prop
  | _, [] => True
  | c, (step, shape) :: ms => ∃ d, advance S c step = some d ∧ d.shape = shape ∧ Follows d ms

/-- A descent out of `a` can be replayed. -/
structure Hops (a : ι) (c : Child ι) : Prop where
  follows : Follows S ⟨a, none⟩ (c.marks a)
  leaf : ∀ idx, c.step = .field idx →
    ∃ f, c.field = some f ∧ getFieldWithVariant (S a) idx c.variant = some f

end Agreement

section FollowsLemmas

variable {S : Shapes ι}

/-- Following a list of marks is standing at the marked shape after every prefix. -/
theorem follows_iff (c : Cursor ι) (ms : List (PathStep × ι)) :
    Follows S c ms ↔ ∀ n ≤ ms.length,
      (navigate S c ((ms.map Prod.fst).take n)).map Cursor.shape
        = (c.shape :: ms.map Prod.snd)[n]? := by
  induction ms generalizing c with
  | nil => simp [Follows]
  | cons m ms ih =>
    obtain ⟨step, shape⟩ := m
    constructor
    · rintro ⟨d, hd, rfl, hms⟩ n hn
      cases n with
      | zero => simp
      | succ n =>
        have hn' : n ≤ ms.length := by simpa using hn
        simpa [hd] using (ih d).mp hms n hn'
    · intro h
      have hone := h 1 (by simp)
      simp only [List.map_cons, List.take_succ_cons, List.take_zero, navigate_cons, navigate_nil,
        Option.bind_fun_some, List.getElem?_cons_succ, List.getElem?_cons_zero,
        Option.map_eq_some_iff] at hone
      obtain ⟨d, hd, hshape⟩ := hone
      refine ⟨d, hd, hshape, (ih d).mpr ?_⟩
      intro n hn
      simpa [hd, hshape] using h (n + 1) (by simpa using hn)

theorem follows_append (c : Cursor ι) (ms ms' : List (PathStep × ι)) :
    Follows S c (ms ++ ms') ↔ Follows S c ms ∧
      ∀ d, navigate S c (ms.map Prod.fst) = some d → Follows S d ms' := by
  induction ms generalizing c with
  | nil => simp [Follows]
  | cons m ms ih =>
    obtain ⟨step, shape⟩ := m
    simp only [List.cons_append, Follows, ih, List.map_cons, navigate_cons]
    constructor
    · rintro ⟨d, hd, hs, hms, hrest⟩
      exact ⟨⟨d, hd, hs, hms⟩, fun e he => hrest e (by simpa [hd] using he)⟩
    · rintro ⟨⟨d, hd, hs, hms⟩, hrest⟩
      exact ⟨d, hd, hs, hms, fun e he => hrest e (by simpa [hd] using he)⟩

end FollowsLemmas

section Children

theorem mem_fieldChildren {variant : Option ℕ} {fields : List (Field ι)} {c : Child ι} :
    c ∈ fieldChildren variant fields ↔ ∃ i f, fields[i]? = some f ∧
      c = { variant, step := .field (asU32 i), shape := f.shape, field := some f } := by
  simp only [fieldChildren, List.mem_map, List.mem_zipIdx_iff_getElem?, Prod.exists]
  constructor
  · rintro ⟨f, i, h, rfl⟩
    exact ⟨i, f, h, rfl⟩
  · rintro ⟨i, f, h, rfl⟩
    exact ⟨f, i, h, rfl⟩

theorem mem_enum_children {ty : EnumType ι} {c : Child ι} :
    c ∈ (Form.enum ty).children ↔ ∃ vi v i f, ty.variants[vi]? = some v ∧
      v.data.fields[i]? = some f ∧
      c = { variant := some (asU32 vi), step := .field (asU32 i), shape := f.shape,
            field := some f } := by
  simp only [Form.children, List.mem_flatMap, List.mem_zipIdx_iff_getElem?, Prod.exists,
    mem_fieldChildren]
  constructor
  · rintro ⟨v, vi, hv, i, f, hf, rfl⟩
    exact ⟨vi, v, i, f, hv, hf, rfl⟩
  · rintro ⟨vi, v, i, f, hv, hf, rfl⟩
    exact ⟨v, vi, hv, i, f, hf, rfl⟩

theorem children_step {shape : Shape ι} {c : Child ι} (h : c ∈ children shape) (idx : ℕ) :
    c.step ≠ .variant idx := by
  unfold children at h
  cases hform : form shape with
  | struct ty =>
    rw [hform, Form.children, mem_fieldChildren] at h
    obtain ⟨i, f, -, rfl⟩ := h
    simp
  | enum ty =>
    rw [hform, mem_enum_children] at h
    obtain ⟨vi, v, i, f, -, -, rfl⟩ := h
    simp
  | leaf => simp [hform, Form.children] at h
  | map k v =>
    simp only [hform, Form.children, List.mem_cons, List.not_mem_nil, or_false] at h
    obtain rfl | rfl := h <;> simp
  | result t e =>
    simp only [hform, Form.children, List.mem_cons, List.not_mem_nil, or_false] at h
    obtain rfl | rfl := h <;> simp
  | _ =>
    simp only [hform, Form.children, List.mem_singleton] at h
    subst h
    simp

end Children

section Trails

variable {S : Shapes ι}

theorem navigate_variant (a : ι) (variant : Option ℕ) :
    navigate S ⟨a, none⟩ (variant.toList.map .variant) = some ⟨a, variant⟩ := by
  cases variant <;> rfl

theorem navigate_descent {a : ι} {c : Child ι} (hc : ∀ idx, c.step ≠ .variant idx)
    (h : Follows S ⟨a, none⟩ (c.marks a)) :
    navigate S ⟨a, none⟩ c.steps = some ⟨c.shape, none⟩ := by
  obtain ⟨-, hlast⟩ := (follows_append _ _ _).mp h
  have hvariant : ((c.variant.toList.map fun vi => (PathStep.variant vi, a)).map Prod.fst)
      = c.variant.toList.map .variant := by
    simp [Function.comp_def]
  rw [hvariant] at hlast
  obtain ⟨⟨s, v⟩, hd, rfl, -⟩ := hlast _ (navigate_variant a c.variant)
  have hv : v = none := variant_of_advance hd hc
  rw [Child.steps, navigate_append, navigate_variant]
  simp [hd, hv]

/-- A trail that is followed ends with the replay at the trail's target. -/
theorem navigate_trail {a : ι} {trail : Trail ι} (hd : Descends S a trail)
    (h : Follows S ⟨a, none⟩ (Trail.marks a trail)) :
    navigate S ⟨a, none⟩ (Trail.path trail) = some ⟨Trail.target a trail, none⟩ := by
  induction trail generalizing a with
  | nil => rfl
  | cons c cs ih =>
    obtain ⟨hc, hcs⟩ := hd
    obtain ⟨hfirst, hrest⟩ := (follows_append _ _ _).mp h
    have hstep := navigate_descent (children_step hc) hfirst
    rw [Child.marks_fst] at hrest
    have htail := ih hcs (hrest _ hstep)
    show navigate S ⟨a, none⟩ (c.steps ++ Trail.path cs) = _
    rw [navigate_append, hstep]
    exact htail

theorem Trail.path_concat (pre : Trail ι) (c : Child ι) :
    Trail.path (pre ++ [c]) = Trail.path pre ++ c.variant.toList.map .variant ++ [c.step] := by
  simp [Trail.path, Child.steps]

theorem Trail.getLast?_path (pre : Trail ι) (c : Child ι) :
    (Trail.path (pre ++ [c])).getLast? = some c.step := by
  rw [Trail.path_concat, List.getLast?_concat]

/-- The field a trail's path resolves to is looked up in the shape left last. -/
theorem resolveLeafField_trail {root a : ι} {pre : Trail ι} {c : Child ι} {idx : ℕ}
    (hpre : navigate S ⟨root, none⟩ (Trail.path pre) = some ⟨a, none⟩)
    (hc : c.step = .field idx) :
    resolveLeafField S root (Trail.path (pre ++ [c])) = getFieldWithVariant (S a) idx c.variant := by
  rw [Trail.path_concat, hc, resolveLeafField_concat_field, navigate_append, hpre,
    Option.bind_some, navigate_variant]
  rfl

theorem follows_trail_iff {root : ι} {trail : Trail ι} :
    Follows S ⟨root, none⟩ (Trail.marks root trail) ↔
      ∀ n ≤ (Trail.path trail).length,
        (navigate S ⟨root, none⟩ ((Trail.path trail).take n)).map Cursor.shape
          = (root :: (Trail.marks root trail).map Prod.snd)[n]? := by
  rw [follows_iff, Trail.marks_fst, ← Trail.marks_fst root trail, List.length_map]

/-- A trail agrees when it is followed and its last descent can be replayed. -/
theorem agrees_of_follows {root : ι} {trail : Trail ι} (hd : Descends S root trail)
    (h : Follows S ⟨root, none⟩ (Trail.marks root trail))
    (hlast : ∀ pre c, trail = pre ++ [c] → Hops S (Trail.target root pre) c) :
    Agrees S root trail where
  navigates := follows_trail_iff.mp h
  formats n hn := by
    have hnav := follows_trail_iff.mp h n hn
    have hlen : n < (root :: (Trail.marks root trail).map Prod.snd).length := by
      have := congrArg List.length (Trail.marks_fst root trail)
      simp only [List.length_map, List.length_cons] at this ⊢
      omega
    rw [List.getElem?_eq_getElem hlen, Option.map_eq_some_iff] at hnav
    obtain ⟨d, hd, hshape⟩ := hnav
    rw [List.getElem?_eq_getElem hlen, ← hshape, formatSteps_cursor hd]
  leaf idx hidx := by
    induction trail using List.reverseRecOn with
    | nil => simp [Trail.path] at hidx
    | append_singleton pre c _ =>
      have hc : c.step = .field idx := by simpa [Trail.getLast?_path] using hidx
      obtain ⟨f, hf, hget⟩ := (hlast pre c rfl).leaf idx hc
      refine ⟨c, f, by simp, hf, ?_⟩
      rw [Trail.marks_append, follows_append] at h
      rw [resolveLeafField_trail (navigate_trail (Descends.of_append hd) h.1) hc, hget]

/-- In a trail that agrees, the last descent can be replayed. -/
theorem hops_of_agrees {root : ι} {pre : Trail ι} {c : Child ι}
    (hd : Descends S root (pre ++ [c])) (h : Agrees S root (pre ++ [c])) :
    Hops S (Trail.target root pre) c := by
  have hfollows := follows_trail_iff.mpr h.navigates
  rw [Trail.marks_append, follows_append, Trail.marks_fst] at hfollows
  have hnav := navigate_trail (Descends.of_append hd) hfollows.1
  constructor
  · simpa [Trail.marks] using hfollows.2 _ hnav
  · intro idx hc
    obtain ⟨c', f, hc', hf, hleaf⟩ := h.leaf idx (by rw [Trail.getLast?_path, hc])
    obtain rfl : c = c' := by simpa using hc'
    refine ⟨f, hf, ?_⟩
    rwa [resolveLeafField_trail hnav hc] at hleaf

end Trails

end Facet.Path
