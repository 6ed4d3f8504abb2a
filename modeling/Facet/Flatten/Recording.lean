import Facet.Flatten.NestedKeyPaths

/-!
# What a resolution records

A resolution records a list of fields when its map holds exactly those, each under its
key, and its required names are those of the required ones. Adding a field and merging
two resolutions extend the recorded list unless two fields compete for a key.
-/

namespace Facet.Flatten

open Std

variable {ι : Type}

structure Resolution.Records (r : Resolution ι) (infos : List (FieldInfo ι)) : Prop where
  fields : ∀ key info, r.fields[key]? = some info ↔ info ∈ infos ∧ info.key = key
  required : ∀ name, name ∈ r.requiredFieldNames ↔
    ∃ info ∈ infos, info.required ∧ info.serializedName = name

namespace Resolution.Records

variable {r : Resolution ι} {infos : List (FieldInfo ι)} {info : FieldInfo ι}

theorem new : Records (Resolution.new : Resolution ι) [] where
  fields key info := by simp [Resolution.new]
  required name := by simp [Resolution.new]

theorem congr (h : r.Records infos) {infos' : List (FieldInfo ι)}
    (hmem : ∀ info, info ∈ infos ↔ info ∈ infos') : r.Records infos' where
  fields key info := by rw [h.fields, hmem]
  required name := by simp only [h.required, hmem]

theorem eq_of_key_eq (h : r.Records infos) {info' : FieldInfo ι} (hi : info ∈ infos)
    (hi' : info' ∈ infos) (hkey : info.key = info'.key) : info = info' := by
  have hsome := (h.fields info'.key info).mpr ⟨hi, hkey⟩
  have hsome' := (h.fields info'.key info').mpr ⟨hi', rfl⟩
  exact Option.some.inj (hsome.symm.trans hsome')

theorem putField (h : r.Records infos) (hfresh : ∀ i ∈ infos, i.key ≠ info.key) :
    (r.putField info.key info).Records (infos ++ [info]) where
  fields key i := by
    simp only [Resolution.putField, TreeMap.getElem?_insert, Std.compare_eq_iff_eq,
      List.mem_append, List.mem_singleton]
    split_ifs with hkey
    · constructor
      · intro hi
        obtain rfl := Option.some.inj hi
        exact ⟨.inr rfl, hkey⟩
      · rintro ⟨hi | rfl, hik⟩
        · exact absurd (hik.trans hkey.symm) (hfresh i hi)
        · rfl
    · rw [h.fields]
      constructor
      · rintro ⟨hi, hik⟩
        exact ⟨.inl hi, hik⟩
      · rintro ⟨hi | rfl, hik⟩
        · exact ⟨hi, hik⟩
        · exact absurd hik hkey
  required name := by
    simp only [Resolution.putField, List.mem_append, List.mem_singleton]
    split_ifs with hreq
    · rw [TreeSet.mem_insert, Std.compare_eq_iff_eq, h.required]
      constructor
      · rintro (hname | ⟨i, hi, hrest⟩)
        · exact ⟨info, .inr rfl, hreq, hname⟩
        · exact ⟨i, .inl hi, hrest⟩
      · rintro ⟨i, hi | rfl, hireq, hname⟩
        · exact .inr ⟨i, hi, hireq, hname⟩
        · exact .inl hname
    · rw [h.required]
      constructor
      · rintro ⟨i, hi, hrest⟩
        exact ⟨i, .inl hi, hrest⟩
      · rintro ⟨i, hi | rfl, hireq, hname⟩
        · exact ⟨i, hi, hireq, hname⟩
        · exact absurd hireq hreq

/-- A field from a new path is either recorded or in conflict with a recorded one. -/
theorem tryPutField (h : r.Records infos)
    (hpath : ∀ i ∈ infos, i.key = info.key → i.path ≠ info.path) :
    match r.tryPutField info.key info with
    | .ok r' => r'.Records (infos ++ [info]) ∧ r'.variantSelections = r.variantSelections
    | .error _ => ∃ i ∈ infos, i.key = info.key := by
  unfold Resolution.tryPutField conflict
  cases hkey : r.fields[info.key]? with
  | none =>
    refine ⟨h.putField fun i hi hik => ?_, rfl⟩
    have hsome := (h.fields info.key i).mpr ⟨hi, hik⟩
    simp [hkey] at hsome
  | some existing =>
    obtain ⟨hmem, hexisting⟩ := (h.fields info.key existing).mp hkey
    simpa [hpath existing hmem hexisting] using ⟨existing, hmem, hexisting⟩

theorem addField (h : r.Records infos)
    (hpath : ∀ i ∈ infos, i.key = info.key → i.path ≠ info.path) :
    match r.addField info with
    | .ok r' => r'.Records (infos ++ [info]) ∧ r'.variantSelections = r.variantSelections
    | .error _ => ∃ i ∈ infos, i.key = info.key :=
  h.tryPutField hpath

theorem mergeFields (h : r.Records infos) {others : List (FieldKey × FieldInfo ι)}
    (hkeys : others.Pairwise fun a b => a.1 ≠ b.1) (hown : ∀ x ∈ others, x.2.key = x.1)
    (hpath : ∀ i ∈ infos, ∀ x ∈ others, i.key = x.2.key → i.path ≠ x.2.path) :
    match r.mergeFields others with
    | .ok r' => r'.Records (infos ++ others.map Prod.snd) ∧
        r'.variantSelections = r.variantSelections
    | .error _ => ∃ i ∈ infos, ∃ x ∈ others, i.key = x.2.key := by
  induction others generalizing r infos with
  | nil => simpa [Resolution.mergeFields] using h
  | cons x others ih =>
    obtain ⟨key, info⟩ := x
    obtain rfl : info.key = key := hown _ List.mem_cons_self
    rw [List.pairwise_cons] at hkeys
    have hput := h.tryPutField fun i hi => hpath i hi _ List.mem_cons_self
    rw [Resolution.mergeFields]
    cases hres : r.tryPutField info.key info with
    | error e =>
      rw [hres] at hput
      obtain ⟨i, hi, hik⟩ := hput
      exact ⟨i, hi, _, List.mem_cons_self, hik⟩
    | ok r' =>
      rw [hres] at hput
      obtain ⟨hrec, hsel⟩ := hput
      have hrest := ih hrec hkeys.2 (fun x hx => hown x (List.mem_cons_of_mem _ hx))
        fun i hi x hx hik => by
          rcases List.mem_append.mp hi with hi | hi
          · exact hpath i hi x (List.mem_cons_of_mem _ hx) hik
          · obtain rfl := List.mem_singleton.mp hi
            exact absurd (hik.trans (hown x (List.mem_cons_of_mem _ hx))) (hkeys.1 x hx)
      dsimp only
      cases hmerge : r'.mergeFields others with
      | error e =>
        rw [hmerge] at hrest
        obtain ⟨i, hi, x, hx, hik⟩ := hrest
        rcases List.mem_append.mp hi with hi | hi
        · exact ⟨i, hi, x, List.mem_cons_of_mem _ hx, hik⟩
        · obtain rfl := List.mem_singleton.mp hi
          exact absurd (hik.trans (hown x (List.mem_cons_of_mem _ hx))) (hkeys.1 x hx)
      | ok r'' =>
        rw [hmerge] at hrest
        exact ⟨by simpa using hrest.1, hrest.2.trans hsel⟩

/-- Merging two resolutions whose fields come from different paths. -/
theorem merge (h : r.Records infos) {r₂ : Resolution ι} {infos₂ : List (FieldInfo ι)}
    (h₂ : r₂.Records infos₂) (hpath : ∀ i ∈ infos, ∀ j ∈ infos₂, i.path ≠ j.path) :
    match r.merge r₂ with
    | .ok r' => r'.Records (infos ++ infos₂) ∧
        r'.variantSelections = r.variantSelections ++ r₂.variantSelections
    | .error _ => ∃ i ∈ infos, ∃ j ∈ infos₂, i.key = j.key := by
  have hlist (x : FieldKey × FieldInfo ι) : x ∈ r₂.fields.toList ↔ x.2 ∈ infos₂ ∧ x.2.key = x.1 :=
    TreeMap.mem_toList_iff_getElem?_eq_some.trans (h₂.fields x.1 x.2)
  have hkeys : r₂.fields.toList.Pairwise fun a b => a.1 ≠ b.1 :=
    TreeMap.distinct_keys_toList.imp fun hne heq => hne (by simp [heq])
  have hmerge := h.mergeFields hkeys (fun x hx => ((hlist x).mp hx).2)
    fun i hi x hx _ => hpath i hi x.2 ((hlist x).mp hx).1
  unfold Resolution.merge
  cases hres : r.mergeFields r₂.fields.toList with
  | error e =>
    rw [hres] at hmerge
    obtain ⟨i, hi, x, hx, hik⟩ := hmerge
    exact ⟨i, hi, x.2, ((hlist x).mp hx).1, hik⟩
  | ok r' =>
    rw [hres] at hmerge
    obtain ⟨hrec, hsel⟩ := hmerge
    have hmem (info : FieldInfo ι) : info ∈ r₂.fields.toList.map Prod.snd ↔ info ∈ infos₂ := by
      constructor
      · intro hi
        obtain ⟨x, hx, rfl⟩ := List.mem_map.mp hi
        exact ((hlist x).mp hx).1
      · intro hi
        exact List.mem_map.mpr ⟨(info.key, info), (hlist _).mpr ⟨hi, rfl⟩, rfl⟩
    have hrec' : r'.Records (infos ++ infos₂) := hrec.congr (by simp [hmem])
    exact ⟨⟨hrec'.fields, hrec'.required⟩, by simp [hsel]⟩

theorem markAllOptional (h : r.Records infos) :
    r.markAllOptional.Records (infos.map fun info => { info with required := false }) where
  fields key info := by
    simp only [Resolution.markAllOptional, TreeMap.getElem?_map, Option.map_eq_some_iff, h.fields,
      List.mem_map]
    constructor
    · rintro ⟨i, ⟨hi, hkey⟩, rfl⟩
      exact ⟨⟨i, hi, rfl⟩, hkey⟩
    · rintro ⟨⟨i, hi, rfl⟩, hkey⟩
      exact ⟨i, ⟨hi, hkey⟩, rfl⟩
  required name := by simp [Resolution.markAllOptional]

end Resolution.Records

structure Computes (r : Resolution ι) (c : Choice ι) : Prop where
  selections : r.variantSelections = c.selections
  records : r.Records (c.entries.map Entry.stored)

/-- One configuration computed for a choice, or a conflict that the choice has. -/
def Single (c : Choice ι) : Analysis (Resolution ι) → Prop
  | .ok r => Computes r c
  | .error (.duplicateField _) => c.Clashes
  | .error .unfinished => False

/-- One configuration for each choice, or a conflict that one of them has. -/
def Enumerated (cs : List (Choice ι)) : Analysis (List (Resolution ι)) → Prop
  | .ok rs => List.Forall₂ Computes rs cs
  | .error (.duplicateField _) => ∃ c ∈ cs, c.Clashes
  | .error .unfinished => False

namespace Computes

variable {r r' : Resolution ι} {c d : Choice ι}

theorem new : Computes (Resolution.new : Resolution ι) .empty := ⟨rfl, .new⟩

theorem sameChoice (h : Computes r c) (hsame : SameChoice r r') : Computes r' c where
  selections := hsame.selections.trans h.selections
  records :=
    ⟨fun key info => by rw [hsame.fields, h.records.fields],
      fun name => by rw [hsame.required, h.records.required]⟩

theorem addVariantSelection (h : Computes r c) (path : FieldPath) (enumName name : String) :
    Computes (r.addVariantSelection path enumName name)
      (c ++ .select ⟨path, enumName, name⟩ .empty) where
  selections := by simp [Resolution.addVariantSelection, h.selections, Choice.select, Choice.empty]
  records := by
    have hentries : (c ++ Choice.select ⟨path, enumName, name⟩ .empty).entries = c.entries := by
      simp [Choice.select, Choice.empty]
    rw [hentries]
    exact ⟨h.records.fields, h.records.required⟩

theorem stored_below (declared wraps : Bool) (c : Choice ι) :
    (c.below declared wraps).entries.map Entry.stored = c.entries.map fun e =>
      { e.stored with required := e.stored.required && !declared } := by
  change (c.entries.map _).map Entry.stored = _
  rw [List.map_map]
  refine List.map_congr_left fun e _ => ?_
  cases declared <;> simp [Entry.stored]

theorem markOptional (h : Computes r c) (declared wraps : Bool) :
    Computes (if declared then r.markAllOptional else r) (c.below declared wraps) where
  selections := by
    rw [← show r.variantSelections = (c.below declared wraps).selections from h.selections]
    cases declared <;> rfl
  records := by
    cases declared with
    | true =>
      rw [stored_below]
      simpa [Function.comp_def] using h.records.markAllOptional
    | false =>
      rw [stored_below]
      simpa using h.records

/-- Fields under one key that come from different paths are in conflict. -/
theorem clashes_of_stored {b : Choice ι} {i j : FieldInfo ι}
    (hi : i ∈ b.entries.map Entry.stored) (hj : j ∈ c.entries.map Entry.stored)
    (hpath : i.path ≠ j.path) (hkey : i.key = j.key) : (b ++ c).Clashes := by
  obtain ⟨e, he, rfl⟩ := List.mem_map.mp hi
  obtain ⟨e', he', rfl⟩ := List.mem_map.mp hj
  exact ⟨e, List.mem_append_left _ he, e', List.mem_append_right _ he', hkey, hpath⟩

theorem merge (h : Computes r c) (h' : Computes r' d)
    (hpath : ∀ e ∈ c.entries, ∀ e' ∈ d.entries, e.info.path ≠ e'.info.path) :
    Single (c ++ d) (orDuplicateField (r.merge r')) := by
  have hstored : ∀ i ∈ c.entries.map Entry.stored, ∀ j ∈ d.entries.map Entry.stored,
      i.path ≠ j.path := by
    intro i hi j hj
    obtain ⟨e, he, rfl⟩ := List.mem_map.mp hi
    obtain ⟨e', he', rfl⟩ := List.mem_map.mp hj
    exact hpath e he e' he'
  have hmerge := h.records.merge h'.records hstored
  cases hres : r.merge r' with
  | ok r'' =>
    rw [hres] at hmerge
    obtain ⟨hrec, hsel⟩ := hmerge
    refine ⟨?_, ?_⟩
    · rw [hsel, h.selections, h'.selections, Choice.selections_append]
    · simpa using hrec
  | error e =>
    rw [hres] at hmerge
    obtain ⟨i, hi, j, hj, hkey⟩ := hmerge
    exact clashes_of_stored hi hj (hstored i hi j hj) hkey

theorem addField (h : Computes r c) {info : FieldInfo ι}
    (hpath : ∀ e ∈ c.entries, e.info.path ≠ info.path) :
    Single (c ++ .plain info) (orDuplicateField (r.addField info)) := by
  have hstored : ∀ i ∈ c.entries.map Entry.stored, i.path ≠ info.path := by
    intro i hi
    obtain ⟨e, he, rfl⟩ := List.mem_map.mp hi
    exact hpath e he
  have hadd := h.records.addField fun i hi _ => hstored i hi
  have hplain : (Choice.plain info).entries.map Entry.stored = [info] := by
    simp [Choice.plain, Entry.stored]
  cases hres : r.addField info with
  | ok r' =>
    rw [hres] at hadd
    obtain ⟨hrec, hsel⟩ := hadd
    refine ⟨?_, ?_⟩
    · rw [hsel, h.selections]
      exact (List.append_nil _).symm
    · rw [Choice.entries_append, List.map_append, hplain]
      exact hrec
  | error e =>
    rw [hres] at hadd
    obtain ⟨i, hi, hkey⟩ := hadd
    exact clashes_of_stored hi (hplain ▸ List.mem_singleton_self info) (hstored i hi) hkey

end Computes

/-- Combining configurations computed for choices with further ones. -/
theorem Single.keepPath {c : Choice ι} {result : Analysis (Resolution ι)} (h : Single c result)
    (path : KeyPath) : Single c (result >>= fun r => pure (r.addKeyPath path)) := by
  match result, h with
  | .ok r, h => exact Computes.sameChoice h (.addKeyPath r path)
  | .error (.duplicateField _), h => exact h

theorem forall₂_imp_of_mem {α β : Type} {R S : α → β → Prop} {xs : List α} {ys : List β}
    (h : List.Forall₂ R xs ys) (hRS : ∀ x, ∀ y ∈ ys, R x y → S x y) : List.Forall₂ S xs ys := by
  induction h with
  | nil => exact .nil
  | @cons x y xs ys hx _ ih =>
    exact .cons (hRS x y List.mem_cons_self hx)
      (ih fun x' y' hy' => hRS x' y' (List.mem_cons_of_mem y hy'))

namespace Enumerated

variable {cs ds : List (Choice ι)} {rs : List (Resolution ι)}

theorem bind {result : Analysis (List (Resolution ι))}
    {next : List (Resolution ι) → Analysis (List (Resolution ι))} (h : Enumerated cs result)
    (hclash : ∀ c ∈ cs, c.Clashes → ∃ d ∈ ds, d.Clashes)
    (hnext : ∀ rs, List.Forall₂ Computes rs cs → Enumerated ds (next rs)) :
    Enumerated ds (result >>= next) := by
  match result, h with
  | .ok rs, h => exact hnext rs h
  | .error (.duplicateField _), ⟨c, hc, hclashes⟩ => exact hclash c hc hclashes

theorem keptAll {result : Analysis (List (Resolution ι))} (h : List.Forall₂ Computes rs cs)
    (hkeep : KeptAll SameChoice False rs result) : Enumerated cs result := by
  obtain ⟨rs', rfl, hsame⟩ := hkeep.exists_ok
  clear hkeep
  change List.Forall₂ Computes rs' cs
  induction h generalizing rs' with
  | nil =>
    cases hsame
    exact .nil
  | cons hr _ ih =>
    cases hsame with
    | cons hr' hrest => exact .cons (hr.sameChoice hr') (ih _ hrest)

theorem mapM {α β : Type} {f : α → Analysis (Resolution ι)} {g : β → Choice ι} {xs : List α}
    {ys : List β} (h : List.Forall₂ (fun x y => Single (g y) (f x)) xs ys) :
    Enumerated (ys.map g) (xs.mapM f) := by
  induction h with
  | nil => exact List.Forall₂.nil
  | @cons x y xs ys hx _ ih =>
    rw [List.mapM_cons]
    match f x, hx with
    | .error (.duplicateField _), hx => exact ⟨g y, List.mem_cons_self, hx⟩
    | .ok r, hx =>
      match xs.mapM f, ih with
      | .ok rs, ih => exact List.Forall₂.cons hx ih
      | .error (.duplicateField _), ⟨c, hc, hclash⟩ =>
        exact ⟨c, List.mem_cons_of_mem _ hc, hclash⟩

theorem flatMapM {α β : Type} {f : α → Analysis (List (Resolution ι))}
    {g : β → List (Choice ι)} {xs : List α} {ys : List β}
    (h : List.Forall₂ (fun x y => Enumerated (g y) (f x)) xs ys) :
    Enumerated (ys.flatMap g) (xs.mapM f >>= fun rss => pure rss.flatten) := by
  induction h with
  | nil => exact List.Forall₂.nil
  | @cons x y xs ys hx _ ih =>
    rw [List.mapM_cons, List.flatMap_cons]
    match f x, hx with
    | .error (.duplicateField _), ⟨c, hc, hclash⟩ =>
      exact ⟨c, List.mem_append_left _ hc, hclash⟩
    | .ok rs, hx =>
      match xs.mapM f, ih with
      | .ok rss, ih => exact List.rel_append hx ih
      | .error (.duplicateField _), ⟨c, hc, hclash⟩ =>
        exact ⟨c, List.mem_append_right _ hc, hclash⟩

theorem mergeEach {r : Resolution ι} {b : Choice ι} (hr : Computes r b)
    (h : List.Forall₂ Computes rs cs)
    (hpath : ∀ c ∈ cs, ∀ e ∈ b.entries, ∀ e' ∈ c.entries, e.info.path ≠ e'.info.path) :
    Enumerated (cs.map (b ++ ·)) (SchemaBuilder.mergeEach r rs) := by
  exact mapM (forall₂_imp_of_mem h fun r' c hc hr' => hr.merge hr' (hpath c hc))

theorem markOptionalIf (h : List.Forall₂ Computes rs cs) (declared wraps : Bool) :
    List.Forall₂ Computes (SchemaBuilder.markOptionalIf declared rs)
      (cs.map (Choice.below declared wraps)) := by
  have hmarked : List.Forall₂ Computes
      (rs.map fun r => if declared then r.markAllOptional else r)
      (cs.map (Choice.below declared wraps)) := by
    rw [List.forall₂_map_left_iff, List.forall₂_map_right_iff]
    exact h.imp fun r c hr => hr.markOptional declared wraps
  cases declared with
  | true => exact hmarked
  | false => simpa [SchemaBuilder.markOptionalIf] using hmarked

end Enumerated

end Facet.Flatten
