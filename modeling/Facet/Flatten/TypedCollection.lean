import Facet.Flatten.DocumentKeys
import Facet.Flatten.TypedPaths

/-!
# Collected key paths have types

Every key path that is collected below a plain field or below a variant's name leads to a field.
-/

namespace Facet.Flatten

open ExceptList

variable {ι : Type} {shapes : Shapes ι}

/-- The second resolution has the selections of the first, and its key paths are those of the
first or satisfy the predicate. -/
structure Adds (P : List VariantSelection → KeyPath → Prop) (r r' : Resolution ι) : Prop where
  selections : r'.variantSelections = r.variantSelections
  paths : ∀ keys, r'.hasKeyPath keys → r.hasKeyPath keys ∨ P r.variantSelections keys

section Adds

variable {P Q : List VariantSelection → KeyPath → Prop} {r r' r'' : Resolution ι}

theorem Adds.refl (r : Resolution ι) : Adds P r r := ⟨rfl, fun _ => .inl⟩

theorem Adds.trans (h : Adds P r r') (h' : Adds P r' r'') : Adds P r r'' := by
  refine ⟨h'.selections.trans h.selections, fun keys hkeys => ?_⟩
  rcases h'.paths keys hkeys with hr' | hp
  · exact h.paths keys hr'
  · exact .inr (h.selections ▸ hp)

theorem Adds.mono (h : Adds P r r')
    (hPQ : ∀ keys, P r.variantSelections keys → Q r.variantSelections keys) : Adds Q r r' :=
  ⟨h.selections, fun keys hkeys => (h.paths keys hkeys).imp_right (hPQ keys)⟩

theorem Adds.addKeyPath {path : KeyPath} (h : P r.variantSelections path) :
    Adds P r (r.addKeyPath path) := by
  refine ⟨rfl, fun keys hkeys => ?_⟩
  rcases (hasKeyPath_addKeyPath r path keys).mp hkeys with rfl | hold
  · exact .inr h
  · exact .inl hold

theorem KeptAll.adds {rs : List (Resolution ι)} {result : Analysis (List (Resolution ι))}
    (h : KeptAll (Adds P) True rs result)
    (hPQ : ∀ sel keys, P sel keys → Q sel keys) : KeptAll (Adds Q) True rs result :=
  Outcome.mono h (fun _ hrs => hrs.imp fun _ _ hr => hr.mono (hPQ _)) fun _ => id

/-- A path is added to every resolution before others are. -/
theorem KeptAll.addsKeyPath {rs : List (Resolution ι)} {path : KeyPath}
    {result : Analysis (List (Resolution ι))} (hpath : ∀ sel, P sel path)
    (h : KeptAll (Adds P) True (rs.map fun r => r.addKeyPath path) result) :
    KeptAll (Adds P) True rs result := by
  have hadded : List.Forall₂ (Adds P) rs (rs.map fun r => r.addKeyPath path) :=
    List.forall₂_map_right_iff.mpr (List.forall₂_same.mpr fun r _ => .addKeyPath (hpath _))
  exact Outcome.mono h (fun _ => forall₂_trans_of (R := Adds P) (fun _ _ _ => Adds.trans) hadded) fun _ => id

theorem Kept.addsKeyPath {path : KeyPath} {result : Analysis (Resolution ι)}
    (hpath : ∀ sel, P sel path) (h : Kept (Adds P) True (r.addKeyPath path) result) :
    Kept (Adds P) True r result :=
  Outcome.mono h (fun _ => (Adds.addKeyPath (hpath _)).trans) fun _ => id

end Adds

variable (shapes) in
/-- The path leads from the prefix on to one of the fields or to a field below them. -/
def ReachedUnder (keyPrefix : KeyPath) (fs : List (Field ι)) (sel : List VariantSelection)
    (keys : KeyPath) : Prop :=
  ∃ rest t, keys = keyPrefix ++ rest ∧ Reached shapes sel fs rest t

theorem ReachedUnder.of_mem {keyPrefix : KeyPath} {fs : List (Field ι)} {f : Field ι}
    (hf : f ∈ fs) {sel : List VariantSelection} {keys : KeyPath}
    (h : ReachedUnder shapes keyPrefix [f] sel keys) :
    ReachedUnder shapes keyPrefix fs sel keys := by
  obtain ⟨rest, t, heq, hreached⟩ := h
  exact ⟨rest, t, heq, hreached.of_mem hf⟩

theorem ReachedUnder.here {keyPrefix : KeyPath} {fs : List (Field ι)} {f : Field ι}
    (hf : f ∈ fs) (hplain : f.isFlattened = false) (sel : List VariantSelection) :
    ReachedUnder shapes keyPrefix fs sel (keyPrefix ++ [f.effectiveName]) :=
  ⟨[f.effectiveName], f.shape, rfl, .here hf hplain⟩

/-- What is reached below the struct of a plain field is reached below the field. -/
theorem ReachedUnder.nested {keyPrefix : KeyPath} {fs : List (Field ι)} {f : Field ι}
    (hf : f ∈ fs) (hplain : f.isFlattened = false) {st : StructType ι}
    (hty : (shapes f.shape).ty = .user (.struct st)) {sel : List VariantSelection} {keys : KeyPath}
    (h : ReachedUnder shapes (keyPrefix ++ [f.effectiveName]) st.fields sel keys) :
    ReachedUnder shapes keyPrefix fs sel keys := by
  obtain ⟨rest, t, heq, hreached⟩ := h
  refine ⟨f.effectiveName :: rest, t, ?_, .nested hf hplain .refl hty hreached⟩
  rw [heq, List.append_assoc, List.singleton_append]

variable (shapes) in
/-- The collection below plain fields, at this fuel. -/
structure NestedTyped (n : ℕ) : Prop where
  shape : ∀ s keyPrefix rs, KeptAll
    (Adds fun sel keys => ∃ st, (shapes s).ty = .user (.struct st) ∧
      ReachedUnder shapes keyPrefix st.fields sel keys) True rs
    (collectNestedKeyPathsForShape shapes n s keyPrefix rs)
  struct : ∀ st keyPrefix rs, KeptAll (Adds (ReachedUnder shapes keyPrefix st.fields)) True rs
    (collectNestedKeyPathsForStruct shapes n st keyPrefix rs)
  flattened : ∀ f keyPrefix rs, f.isFlattened = true →
    KeptAll (Adds (ReachedUnder shapes keyPrefix [f])) True rs
      (collectNestedKeyPathsForFlattened shapes n f keyPrefix rs)
  variant : ∀ v keyPrefix r,
    Kept (Adds (ReachedUnder shapes keyPrefix (contentFields shapes v))) True r
      (collectVariantKeyPaths shapes n v keyPrefix r)

theorem NestedTyped.plainField {n : ℕ} (h : NestedTyped shapes n) {fs : List (Field ι)}
    {f : Field ι} (hf : f ∈ fs) (hplain : f.isFlattened = false) (keyPrefix : KeyPath)
    (rs : List (Resolution ι)) :
    KeptAll (Adds (ReachedUnder shapes keyPrefix fs)) True rs
      (collectNestedKeyPathsForShape shapes n f.shape (keyPrefix ++ [f.effectiveName])
        (rs.map fun r => r.addKeyPath (keyPrefix ++ [f.effectiveName]))) := by
  apply KeptAll.addsKeyPath (ReachedUnder.here hf hplain)
  apply (h.shape f.shape _ _).adds
  rintro sel keys ⟨st, hty, hreached⟩
  exact hreached.nested hf hplain hty

theorem NestedTyped.flatField {n : ℕ} (h : NestedTyped shapes n) {fs : List (Field ι)}
    {f : Field ι} (hf : f ∈ fs) (hflat : f.isFlattened = true) (keyPrefix : KeyPath)
    (rs : List (Resolution ι)) :
    KeptAll (Adds (ReachedUnder shapes keyPrefix fs)) True rs
      (collectNestedKeyPathsForFlattened shapes n f keyPrefix rs) :=
  (h.flattened f keyPrefix rs hflat).adds fun _ _ => .of_mem hf

theorem NestedTyped.namedFields {n : ℕ} (h : NestedTyped shapes n) (fs : List (Field ι))
    (keyPrefix : KeyPath) (r : Resolution ι) :
    Kept (Adds (ReachedUnder shapes keyPrefix fs)) True r (fs.foldlM (fun config f =>
      if f.isFlattened then do
        let configs ← collectNestedKeyPathsForFlattened shapes n f keyPrefix [config]
        return configs.head?.getD .new
      else do
        let configs ← collectNestedKeyPathsForShape shapes n f.shape
          (keyPrefix ++ [f.effectiveName]) [config.addKeyPath (keyPrefix ++ [f.effectiveName])]
        return configs.head?.getD .new) r) := by
  apply Kept.foldlM Adds.refl fun _ _ _ => Adds.trans
  intro f hf r
  by_cases hflat : f.isFlattened = true
  · rw [if_pos hflat]
    exact (h.flatField hf hflat keyPrefix [r]).single
  · rw [if_neg hflat]
    exact (h.plainField hf (Bool.eq_false_iff.mpr hflat) keyPrefix [r]).single

theorem nestedTyped (n : ℕ) : NestedTyped shapes n := by
  induction n with
  | zero =>
    constructor <;> intros
    · trivial
    · trivial
    · trivial
    · trivial
  | succ n ih =>
    constructor
    · intro s keyPrefix rs
      rw [collectNestedKeyPathsForShape]
      split
      · next st hty => exact (ih.struct st keyPrefix rs).adds fun _ _ h => ⟨st, hty, h⟩
      · exact .ok Adds.refl rs
    · intro st keyPrefix rs
      rw [collectNestedKeyPathsForStruct]
      apply KeptAll.foldlM Adds.refl fun _ _ _ => Adds.trans
      intro f hf rs
      by_cases hflat : f.isFlattened = true
      · rw [if_pos hflat]
        exact ih.flatField hf hflat keyPrefix rs
      · rw [if_neg hflat]
        exact ih.plainField hf (Bool.eq_false_iff.mpr hflat) keyPrefix rs
    · intro f keyPrefix rs hflat
      have hmem : f ∈ [f] := List.mem_singleton_self f
      rw [collectNestedKeyPathsForFlattened]
      split
      · next st hty =>
        apply (ih.struct st keyPrefix rs).adds
        rintro sel keys ⟨rest, t, heq, hreached⟩
        exact ⟨rest, t, heq, .struct hmem hflat .refl hty hreached⟩
      · next en hty =>
        apply KeptAll.mapM
        intro r
        dsimp only
        split
        · exact Adds.refl r
        · next vs hvs =>
          split
          · exact Adds.refl r
          · next v hv =>
            apply Outcome.mono (ih.variant v keyPrefix r) _ fun _ => id
            refine fun _ hr => hr.mono ?_
            rintro keys ⟨rest, t, hkeys, hreached⟩
            have hlast := List.find?_some hvs
            have hname := List.find?_some hv
            exact ⟨rest, t, hkeys, .enum hmem hflat .refl hty (List.mem_of_find?_eq_some hv)
              (List.mem_of_find?_eq_some hvs) (eq_of_beq hlast) (eq_of_beq hname).symm hreached⟩
      · exact .ok Adds.refl rs
    · intro v keyPrefix r
      rw [collectVariantKeyPaths]
      cases hnew : newtypeField v with
      | none =>
        rw [contentFields_payload fun f hf => by rw [hnew] at hf; cases hf]
        exact ih.namedFields _ keyPrefix r
      | some f =>
        dsimp only
        split
        · next st hty =>
          rw [contentFields_newtype hnew hty]
          exact (ih.struct st keyPrefix [r]).single
        · next hty =>
          rw [contentFields_payload fun g hg => by rw [hnew] at hg; cases hg; exact hty]
          exact ih.namedFields _ keyPrefix r

variable (shapes) in
/-- The path leads from the prefix on into the contents. -/
def InsideUnder (keyPrefix : KeyPath) (content : Content ι) (_ : List VariantSelection)
    (keys : KeyPath) : Prop :=
  ∃ rest t, keys = keyPrefix ++ rest ∧ ReachedInside shapes content rest t

theorem InsideUnder.imp {keyPrefix : KeyPath} {c d : Content ι} {sel : List VariantSelection}
    {keys : KeyPath} (h : InsideUnder shapes keyPrefix c sel keys)
    (hcd : ∀ rest t, ReachedInside shapes c rest t → ReachedInside shapes d rest t) :
    InsideUnder shapes keyPrefix d sel keys := by
  obtain ⟨rest, t, heq, hreached⟩ := h
  exact ⟨rest, t, heq, hcd rest t hreached⟩

theorem InsideUnder.below {keyPrefix : KeyPath} {key : String} {c d : Content ι}
    {sel : List VariantSelection} {keys : KeyPath}
    (h : InsideUnder shapes (keyPrefix ++ [key]) c sel keys)
    (hcd : ∀ rest t, ReachedInside shapes c rest t → ReachedInside shapes d (key :: rest) t) :
    InsideUnder shapes keyPrefix d sel keys := by
  obtain ⟨rest, t, heq, hreached⟩ := h
  refine ⟨key :: rest, t, ?_, hcd rest t hreached⟩
  rw [heq, List.append_assoc, List.singleton_append]

theorem Kept.inside {keyPrefix : KeyPath} {c d : Content ι} {r : Resolution ι}
    {result : Analysis (Resolution ι)} (h : Kept (Adds (InsideUnder shapes keyPrefix c)) True r result)
    (hcd : ∀ rest t, ReachedInside shapes c rest t → ReachedInside shapes d rest t) :
    Kept (Adds (InsideUnder shapes keyPrefix d)) True r result :=
  Outcome.mono h (fun _ hr => hr.mono fun _ hkeys => hkeys.imp hcd) fun _ => id

theorem Kept.insideField {keyPrefix : KeyPath} {key : String} {s : ι} {d : Content ι}
    {r : Resolution ι} {result : Analysis (Resolution ι)}
    (h : Kept (Adds (InsideUnder shapes (keyPrefix ++ [key]) (.shape s))) True
      (r.addKeyPath (keyPrefix ++ [key])) result)
    (hhere : ReachedInside shapes d [key] s)
    (hbelow : ∀ rest t, ReachedInside shapes (.shape s) rest t →
      ReachedInside shapes d (key :: rest) t) :
    Kept (Adds (InsideUnder shapes keyPrefix d)) True r result := by
  apply Kept.addsKeyPath fun _ => ⟨[key], s, rfl, hhere⟩
  exact Outcome.mono h (fun _ hr => hr.mono fun _ hkeys => hkeys.below hbelow) fun _ => id

variable (shapes) in
/-- The collection below a variant's name, at this fuel. -/
structure InsideTyped (n : ℕ) : Prop where
  shape : ∀ s keyPrefix r, Kept (Adds (InsideUnder shapes keyPrefix (.shape s))) True r
    (collectShapeKeyPathsOnly shapes n s keyPrefix r)
  struct : ∀ st keyPrefix r, Kept (Adds (InsideUnder shapes keyPrefix (.fields st.fields))) True r
    (collectStructKeyPathsOnly shapes n st keyPrefix r)
  variant : ∀ v keyPrefix r, Kept (Adds (InsideUnder shapes keyPrefix (.variant v))) True r
    (collectVariantFieldsKeyPathsOnly shapes n v keyPrefix r)

theorem insideTyped (n : ℕ) : InsideTyped shapes n := by
  induction n with
  | zero =>
    constructor <;> intros
    · trivial
    · trivial
    · trivial
  | succ n ih =>
    constructor
    · intro s keyPrefix r
      rw [collectShapeKeyPathsOnly]
      split
      · next st hty => exact (ih.struct st keyPrefix r).inside fun _ _ => .struct hty
      · next en hty =>
        apply Kept.foldlM Adds.refl fun _ _ _ => Adds.trans
        intro v hv r
        exact (ih.variant v keyPrefix r).inside fun _ _ => .enum hty hv
      · exact Adds.refl r
    · intro st keyPrefix r
      rw [collectStructKeyPathsOnly]
      apply Kept.foldlM Adds.refl fun _ _ _ => Adds.trans
      intro f hf r
      by_cases hflat : f.isFlattened = true
      · rw [if_pos hflat]
        exact (ih.shape f.shape keyPrefix r).inside fun _ _ => .flat hf hflat
      · rw [if_neg hflat]
        have hplain := Bool.eq_false_iff.mpr hflat
        exact (ih.shape f.shape _ _).insideField (.here hf hplain) fun _ _ => .nested hf hplain
    · intro v keyPrefix r
      rw [collectVariantFieldsKeyPathsOnly]
      cases hnew : newtypeField v with
      | some f => exact (ih.shape f.shape keyPrefix r).inside fun _ _ => .newtype hnew
      | none =>
        apply Kept.foldlM Adds.refl fun _ _ _ => Adds.trans
        intro f hf r
        exact (ih.shape f.shape _ _).insideField (.payload hnew hf) fun _ _ =>
          .nestedPayload hnew hf

end Facet.Flatten
