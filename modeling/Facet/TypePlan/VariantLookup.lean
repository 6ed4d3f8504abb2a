import Facet.TypePlan.FieldLookup

/-!
# Looking up a variant by its name

An enum's plan maps the names and aliases of its variants to their indices: in a short list
that is scanned, or in a longer one that is sorted and searched by halving.
-/

namespace Facet.TypePlan

open BinarySearch

variable {ι : Type}

structure VariantPlanMeta (ι : Type) where
  variant : Variant ι
  name : String

/-- The metas that the plan of an enum keeps of its variants. -/
def variantMetas (enumDef : EnumType ι) : List (VariantPlanMeta ι) :=
  enumDef.variants.map fun variant => { variant := variant, name := variant.effectiveName }

inductive VariantLookup
  | small (entries : List (String × ℕ))
  | sorted (entries : List (String × ℕ))

namespace VariantLookup

def find (lookup : VariantLookup) (name : String) : Option ℕ :=
  match lookup with
  | small entries => (entries.find? fun entry => entry.1 == name).map (·.2)
  | sorted entries =>
    ((binarySearchByKey name (·.1) entries).toOption.bind fun i => entries[i]?).map (·.2)

end VariantLookup

/-- An alias is entered unless its name already is. -/
def pushAlias (index : ℕ) (entries : List (String × ℕ)) (name : String) : List (String × ℕ) :=
  if entries.any fun entry => entry.1 == name then entries else entries ++ [(name, index)]

/-- The variants that can be named, with their indices. -/
def namedVariants (variants : List (VariantPlanMeta ι)) : List (VariantPlanMeta ι × ℕ) :=
  variants.zipIdx.filter fun v => !v.1.variant.isOther

/-- All names first, and then the aliases that do not collide. -/
def variantEntries (variants : List (VariantPlanMeta ι)) : List (String × ℕ) :=
  let entries := (namedVariants variants).map fun v => (v.1.name, v.2)
  (namedVariants variants).foldl
    (fun entries v => v.1.variant.aliases.foldl (pushAlias v.2) entries) entries

def buildVariantLookup (variants : List (VariantPlanMeta ι)) : VariantLookup :=
  let entries := variantEntries variants
  if entries.length ≤ lookupThreshold then .small entries else .sorted (sortByKey (·.1) entries)

/-- Entering an alias answers names as if it stood last in any case. -/
theorem find?_pushAlias (index : ℕ) (entries : List (String × ℕ)) (a name : String) :
    (pushAlias index entries a).find? (fun entry => entry.1 == name) =
      (entries ++ [(a, index)]).find? fun entry => entry.1 == name := by
  unfold pushAlias
  by_cases hany : entries.any fun entry => entry.1 == a
  · rw [if_pos hany, List.find?_append]
    by_cases hname : a = name
    · subst hname
      obtain ⟨entry, hentry⟩ := Option.isSome_iff_exists.mp (List.find?_isSome.mpr
        (List.any_eq_true.mp hany))
      rw [hentry, Option.some_or]
    · simp [hname]
  · rw [if_neg hany]

theorem find?_pushAliases (index : ℕ) (aliases : List String) (entries : List (String × ℕ))
    (name : String) :
    (aliases.foldl (pushAlias index) entries).find? (fun entry => entry.1 == name) =
      (entries ++ aliases.map fun a => (a, index)).find? fun entry => entry.1 == name := by
  induction aliases generalizing entries with
  | nil => simp
  | cons a aliases ih =>
    rw [List.foldl_cons, ih, List.find?_append, find?_pushAlias, ← List.find?_append]
    simp

theorem find?_variantEntries (variants : List (VariantPlanMeta ι)) (name : String) :
    (variantEntries variants).find? (fun entry => entry.1 == name) =
      ((namedVariants variants).map (fun v => (v.1.name, v.2)) ++
        (namedVariants variants).flatMap fun v =>
          v.1.variant.aliases.map fun a => (a, v.2)).find? fun entry => entry.1 == name := by
  unfold variantEntries
  generalize (namedVariants variants).map (fun v => (v.1.name, v.2)) = entries
  induction namedVariants variants generalizing entries with
  | nil => simp
  | cons v vs ih =>
    rw [List.foldl_cons, ih, List.find?_append, find?_pushAliases, ← List.find?_append]
    simp

/-- No name has two entries. -/
def NamesDistinct (entries : List (String × ℕ)) : Prop := (entries.map (·.1)).Nodup

theorem NamesDistinct.pushAlias {entries : List (String × ℕ)} (h : NamesDistinct entries)
    (index : ℕ) (a : String) : NamesDistinct (pushAlias index entries a) := by
  unfold TypePlan.pushAlias
  by_cases hany : entries.any fun entry => entry.1 == a
  · rwa [if_pos hany]
  · rw [if_neg hany]
    unfold NamesDistinct at *
    rw [List.map_append, List.nodup_append]
    refine ⟨h, by simp, ?_⟩
    intro b hb c hc hbc
    obtain ⟨entry, hentry, rfl⟩ := List.mem_map.mp hb
    apply hany
    rw [List.any_eq_true]
    exact ⟨entry, hentry, by simpa using hbc.trans (by simpa using hc)⟩

/-- The aliases add no second entry for a name, so only the variants' names could. -/
theorem namesDistinct_variantEntries {variants : List (VariantPlanMeta ι)}
    (h : ((namedVariants variants).map fun v => v.1.name).Nodup) :
    NamesDistinct (variantEntries variants) := by
  unfold variantEntries
  refine List.foldlRecOn _ _ ?_ ?_
  · unfold NamesDistinct
    rwa [List.map_map]
  · intro entries hentries v _
    refine List.foldlRecOn _ _ hentries ?_
    intro entries hentries a _
    exact hentries.pushAlias v.2 a

theorem find_sorted {entries : List (String × ℕ)} (h : NamesDistinct entries)
    (name : String) :
    (VariantLookup.sorted (sortByKey (·.1) entries)).find name =
      (VariantLookup.small entries).find name := by
  apply congrArg (Option.map Prod.snd)
  apply Option.ext
  intro entry
  rw [found_iff name (strictlySorted_sortByKey h) entry]
  rw [(sortByKey_perm entries).mem_iff]
  constructor
  · rintro ⟨hentry, rfl⟩
    have hsome : (entries.find? fun other => other.1 == entry.1).isSome :=
      List.find?_isSome.mpr ⟨entry, hentry, beq_self_eq_true entry.1⟩
    obtain ⟨other, hother⟩ := Option.isSome_iff_exists.mp hsome
    rw [hother, Option.some.injEq]
    exact List.inj_on_of_nodup_map h (List.mem_of_find?_eq_some hother) hentry
      (by simpa using List.find?_some hother)
  · intro hfind
    exact ⟨List.mem_of_find?_eq_some hfind, by simpa using List.find?_some hfind⟩

/-- The first declared variant with the property that can be named. -/
def firstNamed (enumDef : EnumType ι) (p : Variant ι → Bool) : Option ℕ :=
  enumDef.variants.findIdx? fun variant => !variant.isOther && p variant

/-- A variant's name comes before any alias, an earlier variant before a later one. -/
def variantNamed (enumDef : EnumType ι) (name : String) : Option ℕ :=
  (firstNamed enumDef fun variant => variant.effectiveName == name).or
    (firstNamed enumDef fun variant => variant.aliases.contains name)

theorem findSome?_filter {α β : Type} (p : α → Bool) (f : α → Option β) (xs : List α) :
    (xs.filter p).findSome? f = xs.findSome? fun x => if p x then f x else none := by
  induction xs with
  | nil => rfl
  | cons x xs ih => by_cases hp : p x <;> simp [List.findSome?_cons, hp, ih]

/-- The entries of the variants answer with the first variant that has the property, when
each variant's own entries answer with its index exactly if it has. -/
theorem find?_flatMap_named (enumDef : EnumType ι) (name : String) (p : Variant ι → Bool)
    (entriesOf : VariantPlanMeta ι × ℕ → List (String × ℕ))
    (h : ∀ (variant : Variant ι) (i : ℕ),
      ((entriesOf (⟨variant, variant.effectiveName⟩, i)).find? fun entry => entry.1 == name).map
        (·.2) = if p variant then some i else none) :
    (((namedVariants (variantMetas enumDef)).flatMap entriesOf).find?
      fun entry => entry.1 == name).map (·.2) = firstNamed enumDef p := by
  unfold firstNamed namedVariants variantMetas
  rw [List.find?_flatMap, List.map_findSome?, findSome?_filter, List.zipIdx_map,
    List.findSome?_map, List.findIdx?_eq_findSome?_zipIdx]
  congr 1
  funext v
  obtain ⟨variant, i⟩ := v
  cases hother : variant.isOther with
  | true => simp [hother]
  | false => simpa [hother] using h variant i

theorem find_small_variantEntries (enumDef : EnumType ι) (name : String) :
    (VariantLookup.small (variantEntries (variantMetas enumDef))).find name =
      variantNamed enumDef name := by
  have hnames := find?_flatMap_named enumDef name
    (fun variant => variant.effectiveName == name) (fun v => [(v.1.name, v.2)])
    (by
      intro variant i
      by_cases heq : variant.effectiveName == name <;> simp [heq])
  have haliases := find?_flatMap_named enumDef name
    (fun variant => variant.aliases.contains name)
    (fun v => v.1.variant.aliases.map fun a => (a, v.2))
    (by
      intro variant i
      by_cases hmem : name ∈ variant.aliases
      · simp only [List.find?_map, Function.comp_def, Option.map_map, List.contains_iff_mem,
          hmem, if_true, Option.map_eq_some_iff, and_true]
        exact Option.isSome_iff_exists.mp
          (List.find?_isSome.mpr ⟨name, hmem, beq_self_eq_true name⟩)
      · simp only [List.contains_iff_mem, hmem, if_false, Option.map_eq_none_iff,
          List.find?_eq_none, List.mem_map, beq_iff_eq]
        rintro entry ⟨a, ha, rfl⟩ rfl
        exact hmem ha)
  unfold VariantLookup.find variantNamed
  dsimp only
  rw [find?_variantEntries, List.find?_append, Option.map_or, ← hnames, ← haliases,
    List.map_eq_flatMap]

/-- Provided that no two variants that can be named share their name, the table finds the
variant a name stands for, in either form. -/
theorem find_buildVariantLookup (enumDef : EnumType ι)
    (h : ((enumDef.variants.filter fun variant => !variant.isOther).map
      Variant.effectiveName).Nodup) (name : String) :
    (buildVariantLookup (variantMetas enumDef)).find name = variantNamed enumDef name ∧
      (VariantLookup.small (variantEntries (variantMetas enumDef))).find name =
        variantNamed enumDef name ∧
      (VariantLookup.sorted (sortByKey (·.1) (variantEntries (variantMetas enumDef)))).find name =
        variantNamed enumDef name := by
  have hnames : ((namedVariants (variantMetas enumDef)).map fun v => v.1.name).Nodup := by
    have hfst : (namedVariants (variantMetas enumDef)).map (fun v => v.1.name) =
        ((variantMetas enumDef).filter fun v => !v.variant.isOther).map (·.name) := by
      conv_rhs => rw [← List.zipIdx_map_fst 0 (variantMetas enumDef)]
      rw [List.filter_map, List.map_map]
      rfl
    rw [hfst, variantMetas, List.filter_map, List.map_map]
    exact h
  have hsmall := find_small_variantEntries enumDef name
  have hsorted := (find_sorted (namesDistinct_variantEntries hnames) name).trans hsmall
  refine ⟨?_, hsmall, hsorted⟩
  unfold buildVariantLookup
  by_cases hlen : (variantEntries (variantMetas enumDef)).length ≤ lookupThreshold
  · rwa [if_pos hlen]
  · rwa [if_neg hlen]

/-- Two variants with colliding aliases and one that only stands in. -/
def crossedAliases : EnumType Unit where
  variants :=
    [{ name := "Start", data := ⟨.unit, []⟩, aliases := ["Stop", "go"] },
     { name := "Stop", data := ⟨.unit, []⟩, aliases := ["go", "a", "b", "c", "d", "e", "f"] },
     { name := "Rest", data := ⟨.unit, []⟩, attributes := [⟨none, "other"⟩] }]

theorem find_crossedAliases :
    (buildVariantLookup (variantMetas crossedAliases)).find "Stop" = some 1 ∧
      (buildVariantLookup (variantMetas crossedAliases)).find "go" = some 0 ∧
      (buildVariantLookup (variantMetas crossedAliases)).find "Rest" = none :=
  ⟨(find_buildVariantLookup crossedAliases (by decide) "Stop").1.trans (by decide),
    (find_buildVariantLookup crossedAliases (by decide) "go").1.trans (by decide),
    (find_buildVariantLookup crossedAliases (by decide) "Rest").1.trans (by decide)⟩

end Facet.TypePlan
