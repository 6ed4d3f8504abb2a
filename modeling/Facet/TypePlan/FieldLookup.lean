import Facet.Core.Shape
import Facet.Lib.BinarySearch
import Facet.Lib.Buckets
import Facet.TypePlan.Arena

/-!
# Looking up a field by its name

A struct's plan maps the names and aliases of its fields to their indices. Few entries are
scanned; more of them are grouped by the first bytes of their names, and only the group of the
name looked for, found by halving, is scanned.
-/

namespace Facet.TypePlan

open BinarySearch Buckets

structure FieldLookupEntry where
  name : String
  index : ℕ
  isAlias : Bool
  deriving DecidableEq, Repr

/-- A group's key, and where its entries start and how many there are. -/
abbrev Bucket := UInt64 × UInt32 × UInt32

/-- The arenas of a plan that lookups refer to. -/
structure TypePlanCore where
  fieldEntries : Arena FieldLookupEntry := {}
  buckets : Arena Bucket := {}

inductive FieldLookup
  | small (entries : List FieldLookupEntry)
  | prefixBuckets (prefixLen : ℕ) (entries buckets : SliceRange)

/-- The largest number of entries that are looked up by a scan. -/
def lookupThreshold : ℕ := 8

/-- The first bytes of a name as a number, the first byte lowest. -/
def computePrefix (name : String) (prefixLen : ℕ) : UInt64 :=
  let bytes := name.toUTF8.data.toList
  let actualLen := min bytes.length prefixLen
  (bytes.take actualLen).zipIdx.foldl
    (fun acc byte => acc ||| byte.1.toUInt64 <<< UInt64.ofNat (byte.2 * 8)) 0

/-- The first entry of the name. -/
def scan (entries : List FieldLookupEntry) (name : String) : Option ℕ :=
  (entries.find? fun entry => entry.name == name).map (·.index)

/-- The entries of a bucket; the end is computed in 32 bits. -/
def bucketEntries (allEntries : List FieldLookupEntry) (start count : UInt32) :
    Except OutOfBounds (List FieldLookupEntry) :=
  let stop := (start + count).toNat
  if start.toNat ≤ stop ∧ stop ≤ allEntries.length then
    .ok ((allEntries.take stop).drop start.toNat)
  else .error .bucket

/-- The bucket with the key, if there is one. -/
def searchBucket (bucketSlice : List Bucket) (key : UInt64) : Option Bucket :=
  (binarySearchByKey key (·.1) bucketSlice).toOption.bind fun i => bucketSlice[i]?

namespace FieldLookup

def find (lookup : FieldLookup) (name : String) (core : TypePlanCore) :
    Except OutOfBounds (Option ℕ) :=
  match lookup with
  | small entries => .ok (scan entries name)
  | prefixBuckets prefixLen entries buckets => do
    let bucketSlice ← core.buckets.getSlice buckets
    match searchBucket bucketSlice (computePrefix name prefixLen) with
    | none => .ok none
    | some bucket => do
      let allEntries ← core.fieldEntries.getSlice entries
      let bucketEntries ← bucketEntries allEntries bucket.2.1 bucket.2.2
      .ok (scan bucketEntries name)

end FieldLookup

/-- The order in which a hash map yields its entries, which nothing fixes. -/
structure IterationOrder where
  order : List (UInt64 × List FieldLookupEntry) → List (UInt64 × List FieldLookupEntry)
  perm : ∀ groups, (order groups).Perm groups

/-- Write one group behind the others and note where it lies. -/
def layOutGroup (acc : List FieldLookupEntry × List Bucket)
    (group : UInt64 × List FieldLookupEntry) : List FieldLookupEntry × List Bucket :=
  let start := UInt32.ofNat acc.1.length
  let count := UInt32.ofNat group.2.length
  (acc.1 ++ group.2, acc.2 ++ [(group.1, start, count)])

/-- The groups in the order of their keys. -/
def bucketList (order : IterationOrder) (prefixLen : ℕ) (entries : List FieldLookupEntry) :
    List (UInt64 × List FieldLookupEntry) :=
  let prefixMap := groupBy (fun entry => computePrefix entry.name prefixLen) entries
  sortByKey (·.1) (order.order prefixMap)

/-- Group the entries by their names' first bytes. -/
def allocPrefixBuckets (core : TypePlanCore) (order : IterationOrder) (prefixLen : ℕ)
    (entries : List FieldLookupEntry) : TypePlanCore × FieldLookup :=
  let (allEntries, bucketData) := (bucketList order prefixLen entries).foldl layOutGroup ([], [])
  let (fieldEntries, entriesRange) := core.fieldEntries.allocExtend allEntries
  let (buckets, bucketsRange) := core.buckets.allocExtend bucketData
  (⟨fieldEntries, buckets⟩, .prefixBuckets prefixLen entriesRange bucketsRange)

/-- Eight bytes if most names are that long, otherwise four. -/
def choosePrefixLen (entries : List FieldLookupEntry) : ℕ :=
  let longKeyCount := (entries.filter fun entry => 8 ≤ entry.name.utf8ByteSize).length
  if longKeyCount > entries.length / 2 then 8 else 4

def buildFieldLookupFromEntries (core : TypePlanCore) (order : IterationOrder)
    (entries : List FieldLookupEntry) : TypePlanCore × FieldLookup :=
  if entries.length ≤ lookupThreshold then (core, .small entries)
  else allocPrefixBuckets core order (choosePrefixLen entries) entries

/-- For each field its name and then its alias, if it has one. -/
def fieldEntries {ι : Type} (fields : List (Field ι)) : List FieldLookupEntry :=
  fields.zipIdx.flatMap fun field =>
    { name := field.1.effectiveName, index := field.2, isAlias := false } ::
      (field.1.alias.map fun name =>
        { name := name, index := field.2, isAlias := true : FieldLookupEntry }).toList

def buildFieldLookup {ι : Type} (core : TypePlanCore) (order : IterationOrder)
    (fields : List (Field ι)) : TypePlanCore × FieldLookup :=
  buildFieldLookupFromEntries core order (fieldEntries fields)

theorem foldl_layOutGroup_fst (groups : List (UInt64 × List FieldLookupEntry)) :
    (groups.foldl layOutGroup ([], [])).1 = groups.flatMap (·.2) := by
  induction groups using List.reverseRecOn with
  | nil => rfl
  | append_singleton groups group ih =>
    rw [List.foldl_append, List.flatMap_append]
    simp [layOutGroup, ih]

theorem foldl_layOutGroup_keys (groups : List (UInt64 × List FieldLookupEntry)) :
    (groups.foldl layOutGroup ([], [])).2.map (·.1) = groups.map (·.1) := by
  induction groups using List.reverseRecOn with
  | nil => rfl
  | append_singleton groups group ih =>
    rw [List.foldl_append]
    simp [layOutGroup, ih]

/-- A bucket tells where its group starts and how long it is. -/
theorem exists_group_of_mem {groups : List (UInt64 × List FieldLookupEntry)} {bucket : Bucket}
    (h : bucket ∈ (groups.foldl layOutGroup ([], [])).2) :
    ∃ before group after, groups = before ++ group :: after ∧
      bucket = (group.1, UInt32.ofNat (before.flatMap (·.2)).length,
        UInt32.ofNat group.2.length) := by
  induction groups using List.reverseRecOn with
  | nil => cases h
  | append_singleton groups group ih =>
    rw [List.foldl_append] at h
    simp only [List.foldl_cons, List.foldl_nil, layOutGroup, List.mem_append,
      List.mem_singleton] at h
    rcases h with h | h
    · obtain ⟨before, found, after, rfl, hbucket⟩ := ih h
      exact ⟨before, found, after ++ [group], by simp, hbucket⟩
    · refine ⟨groups, group, [], rfl, ?_⟩
      rw [h, foldl_layOutGroup_fst]

theorem grouped_bucketList (order : IterationOrder) (prefixLen : ℕ)
    (entries : List FieldLookupEntry) :
    Grouped (fun entry => computePrefix entry.name prefixLen) entries
      (bucketList order prefixLen entries) :=
  (grouped_groupBy entries).perm ((sortByKey_perm _).trans (order.perm _))

theorem strictlySorted_bucketList (order : IterationOrder) (prefixLen : ℕ)
    (entries : List FieldLookupEntry) :
    StrictlySorted (·.1) (bucketList order prefixLen entries) := by
  apply strictlySorted_sortByKey
  exact ((order.perm _).map _).nodup_iff.mpr (grouped_groupBy entries).nodup

theorem strictlySorted_buckets (order : IterationOrder) (prefixLen : ℕ)
    (entries : List FieldLookupEntry) :
    StrictlySorted (·.1)
      ((bucketList order prefixLen entries).foldl layOutGroup ([], [])).2 := by
  have hsorted := strictlySorted_bucketList order prefixLen entries
  unfold StrictlySorted at hsorted ⊢
  rw [← List.pairwise_map (R := fun a b => compare a b = .lt) (f := fun b : Bucket => b.1),
    foldl_layOutGroup_keys]
  exact List.pairwise_map.mpr hsorted

/-- A bucket's bounds give its group, if the entries are few enough for 32 bits. -/
theorem bucketEntries_eq {groups before after : List (UInt64 × List FieldLookupEntry)}
    {group : UInt64 × List FieldLookupEntry} (h : groups = before ++ group :: after)
    (hlen : (groups.flatMap (·.2)).length < 2 ^ 32) :
    bucketEntries (groups.flatMap (·.2)) (UInt32.ofNat (before.flatMap (·.2)).length)
      (UInt32.ofNat group.2.length) = .ok group.2 := by
  have hslice := slice_flatMap h
  have hsum : (groups.flatMap (·.2)).length =
      (before.flatMap (·.2)).length + (group.2.length + (after.flatMap (·.2)).length) := by
    rw [h, List.flatMap_append, List.flatMap_cons, List.length_append, List.length_append]
  have hstart : (UInt32.ofNat (before.flatMap (·.2)).length).toNat =
      (before.flatMap (·.2)).length := by
    simp only [UInt32.toNat_ofNat']
    omega
  have hstop : (UInt32.ofNat (before.flatMap (·.2)).length +
      UInt32.ofNat group.2.length).toNat =
        (before.flatMap (·.2)).length + group.2.length := by
    simp only [UInt32.toNat_add, UInt32.toNat_ofNat']
    omega
  unfold bucketEntries
  simp only [hstart, hstop]
  rw [if_pos (by omega), List.drop_take, Nat.add_sub_cancel_left, hslice]

namespace TypePlanCore

/-- Both arenas are short enough for 32-bit indices. -/
def Fits (core : TypePlanCore) : Prop :=
  core.fieldEntries.data.length < 2 ^ 32 ∧ core.buckets.data.length < 2 ^ 32

/-- The plan after further allocations. -/
def extendedBy (core : TypePlanCore) (entries : List FieldLookupEntry)
    (buckets : List Bucket) : TypePlanCore :=
  ⟨core.fieldEntries.extendedBy entries, core.buckets.extendedBy buckets⟩

end TypePlanCore

/-- An entry with the name is in the group of the name's key. -/
theorem scan_group (prefixLen : ℕ) (entries : List FieldLookupEntry) (name : String) :
    scan (entries.filter fun entry =>
      computePrefix entry.name prefixLen = computePrefix name prefixLen) name =
        scan entries name := by
  unfold scan
  congr 1
  have hkey : ∀ entry : FieldLookupEntry, (entry.name == name) = true →
      computePrefix entry.name prefixLen = computePrefix name prefixLen := by
    intro entry hentry
    rw [eq_of_beq hentry]
  exact find?_filter_key hkey entries

theorem exists_group_of_searchBucket {order : IterationOrder} {prefixLen : ℕ}
    {entries : List FieldLookupEntry} {key : UInt64} {bucket : Bucket}
    (h : searchBucket ((bucketList order prefixLen entries).foldl layOutGroup ([], [])).2 key =
      some bucket) :
    ∃ before group after, bucketList order prefixLen entries = before ++ group :: after ∧
      group.2 = entries.filter (fun entry => computePrefix entry.name prefixLen = key) ∧
      bucket = (key, UInt32.ofNat (before.flatMap (·.2)).length,
        UInt32.ofNat group.2.length) := by
  obtain ⟨hmem, hkey⟩ := (found_iff key (strictlySorted_buckets order prefixLen entries) bucket).mp h
  obtain ⟨before, group, after, hgroups, rfl⟩ := exists_group_of_mem hmem
  have hkey : group.1 = key := hkey
  have hgroup : (group.1, group.2) ∈ bucketList order prefixLen entries := by
    rw [hgroups]
    simp
  refine ⟨before, group, after, hgroups, ?_, by rw [hkey]⟩
  rw [((grouped_bucketList order prefixLen entries).mem_iff group.1 group.2).mp hgroup |>.1, hkey]

/-- When no bucket is found, no entry has a name with the key. -/
theorem filter_eq_nil_of_searchBucket {order : IterationOrder} {prefixLen : ℕ}
    {entries : List FieldLookupEntry} {key : UInt64}
    (h : searchBucket ((bucketList order prefixLen entries).foldl layOutGroup ([], [])).2 key =
      none) :
    entries.filter (fun entry => computePrefix entry.name prefixLen = key) = [] := by
  by_contra hne
  have hmem := ((grouped_bucketList order prefixLen entries).mem_keys_iff key).mpr hne
  rw [← foldl_layOutGroup_keys, List.mem_map] at hmem
  obtain ⟨bucket, hbucket, hkey⟩ := hmem
  have hfound := (found_iff key (strictlySorted_buckets order prefixLen entries) bucket).mpr
    ⟨hbucket, hkey⟩
  rw [searchBucket, hfound] at h
  cases h

/-- As long as the arenas fit 32-bit indices, the buckets give for every name the index that a
scan of the entries gives, for any length of the keys. -/
theorem find_allocPrefixBuckets (core : TypePlanCore) (order : IterationOrder) (prefixLen : ℕ)
    (entries moreEntries : List FieldLookupEntry) (moreBuckets : List Bucket)
    (h : (allocPrefixBuckets core order prefixLen entries).1.Fits) (name : String) :
    (allocPrefixBuckets core order prefixLen entries).2.find name
      ((allocPrefixBuckets core order prefixLen entries).1.extendedBy moreEntries moreBuckets) =
        (FieldLookup.small entries).find name core := by
  obtain ⟨hentries, hbuckets⟩ := h
  have hall := foldl_layOutGroup_fst (bucketList order prefixLen entries)
  simp only [allocPrefixBuckets, Arena.allocExtend, List.length_append, hall] at hentries hbuckets
  unfold FieldLookup.find allocPrefixBuckets TypePlanCore.extendedBy
  dsimp only
  rw [Arena.getSlice_allocExtend _ _ _ hbuckets]
  simp only [bind, Except.bind]
  cases hsearch : searchBucket
      ((bucketList order prefixLen entries).foldl layOutGroup ([], [])).2
      (computePrefix name prefixLen) with
  | none =>
    dsimp only
    rw [← scan_group prefixLen, filter_eq_nil_of_searchBucket hsearch]
    rfl
  | some bucket =>
    obtain ⟨before, group, after, hgroups, hgroup, rfl⟩ := exists_group_of_searchBucket hsearch
    dsimp only
    rw [hall, Arena.getSlice_allocExtend _ _ _ hentries]
    dsimp only
    rw [bucketEntries_eq hgroups (by omega)]
    dsimp only
    rw [hgroup, scan_group]

theorem fits_allocPrefixBuckets {core : TypePlanCore} {entries : List FieldLookupEntry}
    (hentries : core.fieldEntries.data.length + entries.length < 2 ^ 32)
    (hbuckets : core.buckets.data.length + entries.length < 2 ^ 32) (order : IterationOrder)
    (prefixLen : ℕ) : (allocPrefixBuckets core order prefixLen entries).1.Fits := by
  have hperm : (bucketList order prefixLen entries).Perm
      (groupBy (fun entry => computePrefix entry.name prefixLen) entries) :=
    (sortByKey_perm _).trans (order.perm _)
  have hflat := (hperm.flatMap_right (·.2)).length_eq
  rw [length_flatMap_groupBy] at hflat
  have hcount := hperm.length_eq.trans_le (length_groupBy_le entries)
  have hdata := congrArg List.length (foldl_layOutGroup_keys (bucketList order prefixLen entries))
  rw [List.length_map, List.length_map] at hdata
  unfold TypePlanCore.Fits allocPrefixBuckets Arena.allocExtend
  dsimp only
  rw [List.length_append, List.length_append, foldl_layOutGroup_fst, hflat, hdata]
  omega

theorem find_buildFieldLookupFromEntries (core : TypePlanCore) (order : IterationOrder)
    (entries moreEntries : List FieldLookupEntry) (moreBuckets : List Bucket)
    (h : (buildFieldLookupFromEntries core order entries).1.Fits) (name : String) :
    (buildFieldLookupFromEntries core order entries).2.find name
      ((buildFieldLookupFromEntries core order entries).1.extendedBy moreEntries moreBuckets) =
        .ok (scan entries name) := by
  unfold buildFieldLookupFromEntries at h ⊢
  by_cases hlen : entries.length ≤ lookupThreshold
  · rw [if_pos hlen]
    rfl
  · rw [if_neg hlen] at h ⊢
    exact find_allocPrefixBuckets core order _ entries moreEntries moreBuckets h name

/-- Both the buckets, with keys of any length, and the form that the plan chooses find the index
that a scan of the same entries finds, as long as the arenas fit 32-bit indices. -/
theorem find_eq_scan (core : TypePlanCore) (order : IterationOrder)
    (entries moreEntries : List FieldLookupEntry) (moreBuckets : List Bucket) (name : String) :
    (∀ prefixLen, (allocPrefixBuckets core order prefixLen entries).1.Fits →
      (allocPrefixBuckets core order prefixLen entries).2.find name
        ((allocPrefixBuckets core order prefixLen entries).1.extendedBy moreEntries
          moreBuckets) = (FieldLookup.small entries).find name core) ∧
    ((buildFieldLookupFromEntries core order entries).1.Fits →
      (buildFieldLookupFromEntries core order entries).2.find name
        ((buildFieldLookupFromEntries core order entries).1.extendedBy moreEntries
          moreBuckets) = (FieldLookup.small entries).find name core) :=
  ⟨fun prefixLen h =>
    find_allocPrefixBuckets core order prefixLen entries moreEntries moreBuckets h name,
   fun h => find_buildFieldLookupFromEntries core order entries moreEntries moreBuckets h name⟩

/-- A hash map that happens to yield its entries as they came in. -/
def insertionOrder : IterationOrder := ⟨id, fun groups => .refl groups⟩

/-- Nine entries: short names, names with common beginnings, and a name given twice. -/
def crowdedEntries : List FieldLookupEntry :=
  [⟨"id", 0, false⟩, ⟨"identity", 1, false⟩, ⟨"identifier", 2, false⟩, ⟨"iden", 3, true⟩,
   ⟨"identifier", 4, true⟩, ⟨"", 5, false⟩, ⟨"a", 6, false⟩, ⟨"b", 7, false⟩, ⟨"c", 8, false⟩]

theorem find_crowdedEntries :
    (allocPrefixBuckets {} insertionOrder 4 crowdedEntries).2.find "identifier"
      ((allocPrefixBuckets {} insertionOrder 4 crowdedEntries).1.extendedBy [] []) =
        .ok (some 2) :=
  ((find_eq_scan {} insertionOrder crowdedEntries [] [] "identifier").1 4
    (fits_allocPrefixBuckets (by decide) (by decide) insertionOrder 4)).trans (by decide)

/-- When the number of entries is a multiple of 2³² the lengths become zero, and the buckets
find nothing. -/
theorem find_replicate (prefixLen n : ℕ) (hn : (n + 1) % 2 ^ 32 = 0)
    (entry : FieldLookupEntry) :
    (allocPrefixBuckets {} insertionOrder prefixLen (List.replicate (n + 1) entry)).2.find
      entry.name
      (allocPrefixBuckets {} insertionOrder prefixLen (List.replicate (n + 1) entry)).1 =
        .ok none := by
  have hcast : UInt32.ofNat (n + 1) = 0 := by
    apply UInt32.toNat_inj.mp
    simpa using hn
  have hlist : bucketList insertionOrder prefixLen (List.replicate (n + 1) entry) =
      [(computePrefix entry.name prefixLen, List.replicate (n + 1) entry)] := by
    unfold bucketList insertionOrder
    simp [groupBy_replicate, sortByKey]
  have hsearch : searchBucket [(computePrefix entry.name prefixLen, 0, 0)]
      (computePrefix entry.name prefixLen) = some (computePrefix entry.name prefixLen, 0, 0) :=
    (found_iff _ (List.pairwise_singleton _ _) _).mpr ⟨by simp, rfl⟩
  unfold allocPrefixBuckets
  rw [hlist]
  simp [FieldLookup.find, layOutGroup, Arena.allocExtend, Arena.getSlice, hcast, hsearch,
    bucketEntries, scan, bind, Except.bind]

theorem scan_replicate (n : ℕ) (entry : FieldLookupEntry) :
    scan (List.replicate (n + 1) entry) entry.name = some entry.index := by
  simp [scan]

/-- With 2³² entries of one name the buckets do not find the name that a scan finds first. -/
theorem lost_entries :
    (allocPrefixBuckets {} insertionOrder 8
      (List.replicate (4294967295 + 1) ⟨"identifier", 0, false⟩)).2.find "identifier"
        (allocPrefixBuckets {} insertionOrder 8
          (List.replicate (4294967295 + 1) ⟨"identifier", 0, false⟩)).1 = .ok none ∧
      scan (List.replicate (4294967295 + 1) ⟨"identifier", 0, false⟩) "identifier" = some 0 :=
  ⟨find_replicate 8 4294967295 (by decide) ⟨"identifier", 0, false⟩,
    scan_replicate 4294967295 ⟨"identifier", 0, false⟩⟩

end Facet.TypePlan
