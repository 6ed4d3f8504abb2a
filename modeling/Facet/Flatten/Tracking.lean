import Facet.Flatten.WireKeys

/-!
# Which fields a resolution tracks

The map of a resolution knows, for each key, the path of the field under it. Adding a field
and merging two resolutions extend what is known, and they fail only when one key would
get two paths.
-/

namespace Facet.Flatten

open Std

variable {ι : Type}

abbrev Tracked := FieldKey × FieldPath

/-- One key belongs to two paths. -/
def Conflicting (ps : List Tracked) : Prop :=
  ∃ key p q, (key, p) ∈ ps ∧ (key, q) ∈ ps ∧ p ≠ q

theorem Conflicting.mono {ps qs : List Tracked} (h : Conflicting ps) (hsub : ps ⊆ qs) :
    Conflicting qs := by
  obtain ⟨key, p, q, hp, hq, hne⟩ := h
  exact ⟨key, p, q, hsub hp, hsub hq, hne⟩

theorem Conflicting.append_mono {ps qs qs' : List Tracked} (h : Conflicting (ps ++ qs))
    (hsub : qs ⊆ qs') : Conflicting (ps ++ qs') := by
  apply h.mono
  apply List.append_subset.mpr
  exact ⟨List.subset_append_left ps qs', List.subset_append_of_subset_right ps hsub⟩

structure Resolution.Tracks (r : Resolution ι) (ps : List Tracked) : Prop where
  mem_iff : ∀ key path, (∃ info, r.fields[key]? = some info ∧ info.path = path) ↔ (key, path) ∈ ps
  own : ∀ key (info : FieldInfo ι), r.fields[key]? = some info → info.key = key

namespace Resolution.Tracks

variable {r : Resolution ι} {ps : List Tracked}

theorem new : Tracks (Resolution.new : Resolution ι) [] where
  mem_iff key path := by simp [Resolution.new]
  own key info h := by simp [Resolution.new] at h

theorem congr (h : r.Tracks ps) {qs : List Tracked} (hmem : ∀ x, x ∈ ps ↔ x ∈ qs) :
    r.Tracks qs where
  mem_iff key path := by rw [h.mem_iff, hmem]
  own := h.own

theorem ofFields (h : r.Tracks ps) {r' : Resolution ι} (hfields : r'.fields = r.fields) :
    r'.Tracks ps where
  mem_iff := by rw [hfields]; exact h.mem_iff
  own := by rw [hfields]; exact h.own

theorem not_conflicting (h : r.Tracks ps) : ¬ Conflicting ps := by
  rintro ⟨key, p, q, hp, hq, hne⟩
  obtain ⟨i, hi, rfl⟩ := (h.mem_iff key p).mpr hp
  obtain ⟨j, hj, rfl⟩ := (h.mem_iff key q).mpr hq
  obtain rfl : i = j := Option.some.inj (hi.symm.trans hj)
  exact hne rfl

theorem putField (h : r.Tracks ps) {info : FieldInfo ι}
    (hpath : ∀ existing, r.fields[info.key]? = some existing → existing.path = info.path) :
    (r.putField info.key info).Tracks (ps ++ [(info.key, info.path)]) where
  mem_iff key path := by
    simp only [Resolution.putField, TreeMap.getElem?_insert, Std.compare_eq_iff_eq,
      List.mem_append, List.mem_singleton, Prod.mk.injEq]
    split_ifs with hkey
    · subst hkey
      constructor
      · rintro ⟨i, hi, rfl⟩
        obtain rfl := Option.some.inj hi
        exact .inr ⟨rfl, rfl⟩
      · rintro (hmem | ⟨-, rfl⟩)
        · obtain ⟨existing, hexisting, rfl⟩ := (h.mem_iff info.key path).mpr hmem
          exact ⟨info, rfl, (hpath existing hexisting).symm⟩
        · exact ⟨info, rfl, rfl⟩
    · rw [h.mem_iff]
      constructor
      · exact .inl
      · rintro (hmem | ⟨rfl, -⟩)
        · exact hmem
        · exact absurd rfl hkey
  own key i hi := by
    simp only [Resolution.putField, TreeMap.getElem?_insert, Std.compare_eq_iff_eq] at hi
    split_ifs at hi with hkey
    · obtain rfl := Option.some.inj hi
      exact hkey
    · exact h.own key i hi

theorem tryPutField (h : r.Tracks ps) (info : FieldInfo ι) :
    match r.tryPutField info.key info with
    | .ok r' => r'.Tracks (ps ++ [(info.key, info.path)])
    | .error _ => Conflicting (ps ++ [(info.key, info.path)]) := by
  unfold Resolution.tryPutField conflict
  cases hkey : r.fields[info.key]? with
  | none =>
    apply h.putField
    intro existing hexisting
    simp [hkey] at hexisting
  | some existing =>
    by_cases hpath : existing.path = info.path
    · simp only [hpath, ne_eq, not_true_eq_false, if_false]
      apply h.putField
      intro existing' hexisting'
      obtain rfl : existing = existing' := Option.some.inj (hkey.symm.trans hexisting')
      exact hpath
    · simp only [hpath, ne_eq, not_false_eq_true, if_true]
      have hmem : (info.key, existing.path) ∈ ps :=
        (h.mem_iff info.key existing.path).mp ⟨existing, hkey, rfl⟩
      exact ⟨info.key, existing.path, info.path, List.mem_append_left _ hmem,
        List.mem_append_right _ (List.mem_singleton_self _), hpath⟩

theorem mergeFields (h : r.Tracks ps) {others : List (FieldKey × FieldInfo ι)}
    (hown : ∀ x ∈ others, x.2.key = x.1) :
    match r.mergeFields others with
    | .ok r' => r'.Tracks (ps ++ others.map fun x => (x.1, x.2.path))
    | .error _ => Conflicting (ps ++ others.map fun x => (x.1, x.2.path)) := by
  induction others generalizing r ps with
  | nil => simpa [Resolution.mergeFields] using h
  | cons x others ih =>
    obtain ⟨key, info⟩ := x
    obtain rfl : info.key = key := hown _ List.mem_cons_self
    have hput := h.tryPutField info
    rw [Resolution.mergeFields]
    cases hres : r.tryPutField info.key info with
    | error e =>
      rw [hres] at hput
      exact hput.append_mono (by simp)
    | ok r' =>
      rw [hres] at hput
      have hrest := ih hput (fun x hx => hown x (List.mem_cons_of_mem _ hx))
      rw [List.append_assoc] at hrest
      exact hrest

theorem merge (h : r.Tracks ps) {r₂ : Resolution ι} {qs : List Tracked} (h₂ : r₂.Tracks qs) :
    match r.merge r₂ with
    | .ok r' => r'.Tracks (ps ++ qs)
    | .error _ => Conflicting (ps ++ qs) := by
  have hlist (x : FieldKey × FieldInfo ι) : x ∈ r₂.fields.toList ↔ r₂.fields[x.1]? = some x.2 :=
    TreeMap.mem_toList_iff_getElem?_eq_some
  have hpairs (x : Tracked) : x ∈ (r₂.fields.toList.map fun x => (x.1, x.2.path)) ↔ x ∈ qs := by
    obtain ⟨key, path⟩ := x
    rw [← h₂.mem_iff]
    simp only [List.mem_map, hlist, Prod.exists, Prod.mk.injEq]
    constructor
    · rintro ⟨key', info, hi, rfl, rfl⟩
      exact ⟨info, hi, rfl⟩
    · rintro ⟨info, hi, rfl⟩
      exact ⟨key, info, hi, rfl, rfl⟩
  have hown : ∀ x ∈ r₂.fields.toList, x.2.key = x.1 :=
    fun x hx => h₂.own x.1 x.2 ((hlist x).mp hx)
  have hmerge := h.mergeFields hown
  unfold Resolution.merge
  cases hres : r.mergeFields r₂.fields.toList with
  | error e =>
    rw [hres] at hmerge
    exact hmerge.append_mono fun x hx => (hpairs x).mp hx
  | ok r' =>
    rw [hres] at hmerge
    have htracks : r'.Tracks (ps ++ qs) := hmerge.congr (by simp only [List.mem_append, hpairs, implies_true])
    exact htracks.ofFields rfl

theorem markAllOptional (h : r.Tracks ps) : r.markAllOptional.Tracks ps where
  mem_iff key path := by
    rw [← h.mem_iff]
    simp only [Resolution.markAllOptional, TreeMap.getElem?_map, Option.map_eq_some_iff]
    constructor
    · rintro ⟨_, ⟨i, hi, rfl⟩, hpath⟩
      exact ⟨i, hi, hpath⟩
    · rintro ⟨i, hi, hpath⟩
      exact ⟨_, ⟨i, hi, rfl⟩, hpath⟩
  own key info hinfo := by
    simp only [Resolution.markAllOptional, TreeMap.getElem?_map, Option.map_eq_some_iff] at hinfo
    obtain ⟨i, hi, rfl⟩ := hinfo
    exact h.own key i hi

end Resolution.Tracks

end Facet.Flatten
