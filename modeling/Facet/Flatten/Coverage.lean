import Facet.Flatten.Tracking

/-!
# Configurations that cover choices

Configurations cover a set of choices when each of them tracks the keys of one choice and
each choice is tracked by one of them. Traversing the configurations keeps this up, or it
stops at two keys of one kind that have one name.
-/

namespace Facet.Flatten

open Filter

variable {ι : Type} {shapes : Shapes ι} {b : SchemaBuilder ι}

def tracked (ks : List WireKey) : List Tracked := ks.map fun k => (k.key, k.path)

theorem tracked_append (ks ls : List WireKey) : tracked (ks ++ ls) = tracked ks ++ tracked ls :=
  List.map_append

theorem conflicting_tracked (ks : List WireKey) : Conflicting (tracked ks) ↔ LikeClash ks := by
  constructor
  · rintro ⟨key, p, q, hp, hq, hne⟩
    obtain ⟨k, hk, hkp⟩ := List.mem_map.mp hp
    obtain ⟨l, hl, hlq⟩ := List.mem_map.mp hq
    simp only [Prod.mk.injEq] at hkp hlq
    have hkey : k.key = l.key := hkp.1.trans hlq.1.symm
    obtain ⟨hselector, hname⟩ := (WireKey.key_eq_iff k l).mp hkey
    refine ⟨k, hk, l, hl, hselector, hname, ?_⟩
    rwa [hkp.2, hlq.2]
  · rintro ⟨k, hk, l, hl, hselector, hname, hne⟩
    have hkey : k.key = l.key := (WireKey.key_eq_iff k l).mpr ⟨hselector, hname⟩
    refine ⟨k.key, k.path, l.path, List.mem_map_of_mem hk, ?_, hne⟩
    rw [hkey]
    exact List.mem_map_of_mem hl

/-- One configuration for a choice, or a clash that the choice has. -/
def Recorded (ks : List WireKey) : Analysis (Resolution ι) → Prop
  | .ok r => r.Tracks (tracked ks)
  | .error (.duplicateField _) => LikeClash ks
  | .error .unfinished => False

/-- The configurations are those of the choices in the set. -/
structure Cover (rs : List (Resolution ι)) (D : Set (List WireKey)) : Prop where
  sound : ∀ r ∈ rs, ∃ ks ∈ D, r.Tracks (tracked ks)
  complete : ∀ ks ∈ D, ∃ r ∈ rs, r.Tracks (tracked ks)

/-- The configurations of the choices in the set, or a clash that one of them has. -/
def AllRecorded (D : Set (List WireKey)) : Analysis (List (Resolution ι)) → Prop
  | .ok rs => Cover rs D
  | .error (.duplicateField _) => ∃ ks ∈ D, LikeClash ks
  | .error .unfinished => False

/-- A choice of the first set followed by one of the second. -/
abbrev followed (B D : Set (List WireKey)) : Set (List WireKey) := Set.image2 (· ++ ·) B D

theorem followed_assoc (B D E : Set (List WireKey)) :
    followed (followed B D) E = followed B (followed D E) :=
  Set.image2_assoc List.append_assoc

@[simp] theorem followed_nil (B : Set (List WireKey)) : followed B {[]} = B := by
  simp [followed]

@[simp] theorem nil_followed (D : Set (List WireKey)) : followed {[]} D = D := by
  simp [followed]

theorem Cover.new : Cover [(.new : Resolution ι)] {[]} where
  sound r hr := ⟨[], rfl, by rw [List.mem_singleton.mp hr]; exact .new⟩
  complete ks hks := ⟨.new, List.mem_singleton_self _, by rw [Set.mem_singleton_iff.mp hks]; exact .new⟩

section Traversals

variable {D E : Set (List WireKey)} {rs : List (Resolution ι)}

theorem Cover.map (h : Cover rs D) {f : Resolution ι → Resolution ι}
    (hf : ∀ r ps, r.Tracks ps → (f r).Tracks ps) : Cover (rs.map f) D where
  sound r hr := by
    obtain ⟨r', hr', rfl⟩ := List.mem_map.mp hr
    obtain ⟨ks, hks, htracks⟩ := h.sound r' hr'
    exact ⟨ks, hks, hf _ _ htracks⟩
  complete ks hks := by
    obtain ⟨r, hr, htracks⟩ := h.complete ks hks
    exact ⟨f r, List.mem_map_of_mem hr, hf _ _ htracks⟩

theorem Cover.markOptionalIf (h : Cover rs D) (optional : Bool) :
    Cover (SchemaBuilder.markOptionalIf optional rs) D := by
  unfold SchemaBuilder.markOptionalIf
  split
  · exact h.map fun r ps hr => hr.markAllOptional
  · exact h

theorem Cover.keptAll (h : Cover rs D) {result : Analysis (List (Resolution ι))}
    (hkeep : KeptAll SameChoice False rs result) : AllRecorded D result := by
  obtain ⟨rs', rfl, hsame⟩ := hkeep.exists_ok
  constructor
  · intro r' hr'
    obtain ⟨r, hr, hrr'⟩ := exists_of_forall₂_right hsame hr'
    obtain ⟨ks, hks, htracks⟩ := h.sound r hr
    exact ⟨ks, hks, htracks.ofFields hrr'.fields⟩
  · intro ks hks
    obtain ⟨r, hr, htracks⟩ := h.complete ks hks
    obtain ⟨r', hr', hrr'⟩ := exists_of_forall₂_right hsame.flip hr
    exact ⟨r', hr', htracks.ofFields hrr'.fields⟩

theorem AllRecorded.bind {result : Analysis (List (Resolution ι))}
    {next : List (Resolution ι) → Analysis (List (Resolution ι))} (h : AllRecorded D result)
    (hclash : ∀ ks ∈ D, LikeClash ks → ∃ ls ∈ E, LikeClash ls)
    (hnext : ∀ rs, Cover rs D → AllRecorded E (next rs)) : AllRecorded E (result >>= next) := by
  match result, h with
  | .ok rs, h => exact hnext rs h
  | .error (.duplicateField _), ⟨ks, hks, hlike⟩ => exact hclash ks hks hlike

theorem Recorded.bind {ks : List WireKey} {result : Analysis (Resolution ι)}
    {next : Resolution ι → Analysis (List (Resolution ι))} (h : Recorded ks result)
    (hclash : LikeClash ks → ∃ ls ∈ E, LikeClash ls)
    (hnext : ∀ r, r.Tracks (tracked ks) → AllRecorded E (next r)) :
    AllRecorded E (result >>= next) := by
  match result, h with
  | .ok r, h => exact hnext r h
  | .error (.duplicateField _), hlike => exact hclash hlike

theorem Recorded.keepPath {ks : List WireKey} {result : Analysis (Resolution ι)}
    (h : Recorded ks result) (path : KeyPath) :
    Recorded ks (result >>= fun r => pure (r.addKeyPath path)) := by
  match result, h with
  | .ok r, h => exact Resolution.Tracks.ofFields h rfl
  | .error (.duplicateField _), h => exact h

theorem AllRecorded.mapM {step : Resolution ι → Analysis (Resolution ι)}
    {next : List WireKey → List WireKey} (h : Cover rs D)
    (hstep : ∀ r, ∀ ks ∈ D, r.Tracks (tracked ks) → Recorded (next ks) (step r)) :
    AllRecorded (next '' D) (rs.mapM step) := by
  cases hres : rs.mapM step with
  | ok rs' =>
    constructor
    · intro r' hr'
      obtain ⟨r, hr, heq⟩ := (ExceptList.mem_iff_of_mapM_ok hres r').mp hr'
      obtain ⟨ks, hks, htracks⟩ := h.sound r hr
      have hrecorded := hstep r ks hks htracks
      rw [heq] at hrecorded
      exact ⟨next ks, Set.mem_image_of_mem next hks, hrecorded⟩
    · rintro _ ⟨ks, hks, rfl⟩
      obtain ⟨r, hr, htracks⟩ := h.complete ks hks
      obtain ⟨r', hr', heq⟩ := ExceptList.exists_ok_of_mapM_ok hres hr
      have hrecorded := hstep r ks hks htracks
      rw [heq] at hrecorded
      exact ⟨r', hr', hrecorded⟩
  | error e =>
    obtain ⟨r, hr, heq⟩ := ExceptList.exists_of_mapM_error hres
    obtain ⟨ks, hks, htracks⟩ := h.sound r hr
    have hrecorded := hstep r ks hks htracks
    rw [heq] at hrecorded
    cases e with
    | duplicateField err => exact ⟨next ks, Set.mem_image_of_mem next hks, hrecorded⟩
    | unfinished => exact hrecorded

/-- The configurations that each member of a list leads to, put together; the members stand
for the elements of a set. -/
theorem AllRecorded.flatMapM {α κ : Type} {xs : List α} {K : Set κ} {R : α → κ → Prop}
    {step : α → Analysis (List (Resolution ι))} {next : κ → Set (List WireKey)}
    (hsound : ∀ x ∈ xs, ∃ k ∈ K, R x k) (hcomplete : ∀ k ∈ K, ∃ x ∈ xs, R x k)
    (hstep : ∀ x, ∀ k ∈ K, R x k → AllRecorded (next k) (step x)) :
    AllRecorded {ks | ∃ k ∈ K, ks ∈ next k} (xs.mapM step >>= fun rss => pure rss.flatten) := by
  cases hres : xs.mapM step with
  | ok rss =>
    constructor
    · intro r hr
      obtain ⟨rs, hrs, hr⟩ := List.mem_flatten.mp hr
      obtain ⟨x, hx, heq⟩ := (ExceptList.mem_iff_of_mapM_ok hres rs).mp hrs
      obtain ⟨k, hk, hxk⟩ := hsound x hx
      have hrecorded := hstep x k hk hxk
      rw [heq] at hrecorded
      obtain ⟨ks, hks, htracks⟩ := hrecorded.sound r hr
      exact ⟨ks, ⟨k, hk, hks⟩, htracks⟩
    · rintro ks ⟨k, hk, hks⟩
      obtain ⟨x, hx, hxk⟩ := hcomplete k hk
      obtain ⟨rs, hrs, heq⟩ := ExceptList.exists_ok_of_mapM_ok hres hx
      have hrecorded := hstep x k hk hxk
      rw [heq] at hrecorded
      obtain ⟨r, hr, htracks⟩ := hrecorded.complete ks hks
      exact ⟨r, List.mem_flatten.mpr ⟨rs, hrs, hr⟩, htracks⟩
  | error e =>
    obtain ⟨x, hx, heq⟩ := ExceptList.exists_of_mapM_error hres
    obtain ⟨k, hk, hxk⟩ := hsound x hx
    have hrecorded := hstep x k hk hxk
    rw [heq] at hrecorded
    cases e with
    | duplicateField err =>
      obtain ⟨ks, hks, hlike⟩ := hrecorded
      exact ⟨ks, ⟨k, hk, hks⟩, hlike⟩
    | unfinished => exact hrecorded

theorem Resolution.Tracks.addField {r : Resolution ι} {ks : List WireKey}
    (h : r.Tracks (tracked ks)) {info : FieldInfo ι} {k : WireKey} (hkey : info.key = k.key)
    (hpath : info.path = k.path) : Recorded (ks ++ [k]) (orDuplicateField (r.addField info)) := by
  have hadd := h.tryPutField info
  have hpairs : tracked ks ++ [(info.key, info.path)] = tracked (ks ++ [k]) := by
    rw [tracked_append, hkey, hpath]
    rfl
  rw [hpairs] at hadd
  unfold Resolution.addField
  cases hres : r.tryPutField info.key info with
  | ok r' =>
    rw [hres] at hadd
    exact hadd
  | error e =>
    rw [hres] at hadd
    exact (conflicting_tracked _).mp hadd

/-- Each configuration of a covered list is merged into one configuration. -/
theorem Cover.mergeEach (h : Cover rs D) {r : Resolution ι} {ks : List WireKey}
    (hr : r.Tracks (tracked ks)) :
    AllRecorded ((ks ++ ·) '' D) (SchemaBuilder.mergeEach r rs) := by
  apply AllRecorded.mapM h
  intro r' ls _ hr'
  have hmerge := hr.merge hr'
  rw [← tracked_append] at hmerge
  cases hres : r.merge r' with
  | ok r'' =>
    rw [hres] at hmerge
    exact hmerge
  | error e =>
    rw [hres] at hmerge
    exact (conflicting_tracked _).mp hmerge

end Traversals

end Facet.Flatten
