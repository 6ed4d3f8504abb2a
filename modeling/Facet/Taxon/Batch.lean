import Facet.Lib.OptionState
import Facet.Taxon.Erasure

/-!
# The batch under construction

The walk keeps three facts about the batch: ids are positions, distinct shapes have
distinct ids, and every schema but those in progress has the kind of its shape, with each
reference replaced by the id of the shape it stands for.
-/

namespace Facet.Taxon

variable {ι σ : Type}

/-- Entries are only added and schemas stay, except for those in progress. -/
structure Grows (b b' : Builder ι σ) : Prop where
  seen : b.seen <+: b'.seen
  schemas : ∀ (i : ℕ) (schema : Schema σ), b.schemas[i]? = some schema →
    b'.schemas[i]? = some schema

namespace Grows

theorem refl (b : Builder ι σ) : Grows b b := ⟨List.prefix_rfl, fun _ _ h => h⟩

theorem trans (b₁ b₂ b₃ : Builder ι σ) (h : Grows b₁ b₂) (h' : Grows b₂ b₃) : Grows b₁ b₃ :=
  ⟨h.seen.trans h'.seen, fun i schema hi => h'.schemas i schema (h.schemas i schema hi)⟩

end Grows

section Ids

variable [Fintype ι] [DecidableEq ι] (shapes : Shapes ι)

/-- The reference to the shape that `s` stands for, once it has an id. -/
def refTo (b : Builder ι σ) (s : ι) : Option (SchemaRef σ) :=
  (b.seen.find? fun e => e.1 = ShapeKey.of shapes (pointedTo shapes s)).map fun e =>
    .concrete e.2

/-- Entry `i` is in progress or its schema has the kind of its shape. -/
def Settled (pending : Set ℕ) (b : Builder ι σ) (i : ℕ) (shape : ι) : Prop :=
  i ∈ pending ∨ ∃ schema, b.schemas[i]? = some schema ∧
    (shapeKind (shapes shape)).Resolves (refTo shapes b) schema.kind

structure Valid (fromRaw : ℕ → σ) (pending : Set ℕ) (b : Builder ι σ) : Prop where
  seen_ids : b.seen.map Prod.snd = b.schemas.map Schema.id
  ids : ∀ i schema, b.schemas[i]? = some schema → schema.id = fromRaw i
  keys : (b.seen.map Prod.fst).Nodup
  settled : ∀ i e, b.seen[i]? = some e → e.1 = ShapeKey.of shapes e.1.id ∧
    transparentPointee shapes e.1.id = none ∧ Settled shapes pending b i e.1.id

theorem valid_empty (fromRaw : ℕ → σ) : Valid shapes fromRaw ∅ {} where
  seen_ids := rfl
  ids _ _ h := by cases h
  keys := .nil
  settled _ _ h := by cases h

variable {shapes}

theorem refTo_mono {b b' : Builder ι σ} (h : b.seen <+: b'.seen) {s : ι} {r : SchemaRef σ}
    (hr : refTo shapes b s = some r) : refTo shapes b' s = some r := by
  obtain ⟨rest, hrest⟩ := h
  obtain ⟨e, he, her⟩ := Option.map_eq_some_iff.mp hr
  rw [refTo, ← hrest, List.find?_append, he]
  exact congrArg some her

theorem Settled.mono {pending : Set ℕ} {b b' : Builder ι σ} (h : Grows b b') {i : ℕ} {s : ι}
    (hs : Settled shapes pending b i s) : Settled shapes pending b' i s := by
  obtain hp | ⟨schema, hschema, hkind⟩ := hs
  · exact .inl hp
  · exact .inr ⟨schema, h.schemas i schema hschema, hkind.mono fun _ _ => refTo_mono h.seen⟩

namespace Valid

variable {fromRaw : ℕ → σ} {pending : Set ℕ} {b : Builder ι σ}

theorem length_seen (h : Valid shapes fromRaw pending b) : b.seen.length = b.schemas.length := by
  have := congrArg List.length h.seen_ids
  simpa using this

end Valid

section Steps

open OptionState

variable {fromRaw : ℕ → σ} {pending : Set ℕ} {α β γ : Type}

/-- A step that keeps the batch valid and answers as `P` says of the references so far. -/
def Reads (shapes : Shapes ι) (fromRaw : ℕ → σ) (pending : Set ℕ)
    (P : (ι → Option (SchemaRef σ)) → α → Prop) (x : Build ι σ α) : Prop :=
  Gives (Valid shapes fromRaw pending) Grows (fun a b => P (refTo shapes b) a) x

/-- What holds of some references holds with more of them. -/
def Stable (P : (ι → Option (SchemaRef σ)) → α → Prop) : Prop :=
  ∀ f g a, P f a → (∀ r r', f r = some r' → g r = some r') → P g a

variable {P : (ι → Option (SchemaRef σ)) → α → Prop} {P' : (ι → Option (SchemaRef σ)) → β → Prop}
  {P'' : (ι → Option (SchemaRef σ)) → γ → Prop}

namespace Reads

theorem pure {a : α} (ha : ∀ f, P f a) :
    Reads shapes fromRaw pending P (pure a : Build ι σ α) :=
  Gives.pure Grows.refl fun b _ => ha (refTo shapes b)

theorem map {x : Build ι σ α} {g : α → β} (hx : Reads shapes fromRaw pending P x)
    (hg : ∀ f a, P f a → P' f (g a)) :
    Reads shapes fromRaw pending P' (x >>= fun a => Pure.pure (g a)) :=
  Gives.map hx fun a b ha => hg (refTo shapes b) a ha

theorem map₂ {x : Build ι σ α} {y : Build ι σ β} {g : α → β → γ} (hstable : Stable P)
    (hx : Reads shapes fromRaw pending P x) (hy : Reads shapes fromRaw pending P' y)
    (hg : ∀ f a b, P f a → P' f b → P'' f (g a b)) :
    Reads shapes fromRaw pending P'' (x >>= fun a => y >>= fun b => Pure.pure (g a b)) := by
  apply Gives.map₂ Grows.trans _ hx hy
  · intro a c b ha hc
    exact hg (refTo shapes b) a c ha hc
  · intro a b b' ha hb
    exact hstable _ _ a ha fun s r hr => refTo_mono hb.seen hr

theorem mapM {P : α → (ι → Option (SchemaRef σ)) → β → Prop} {l : List α} {f : α → Build ι σ β}
    (hstable : ∀ a, Stable (P a)) (hf : ∀ a ∈ l, Reads shapes fromRaw pending (P a) (f a)) :
    Reads shapes fromRaw pending (fun refer bs => List.Forall₂ (fun a b => P a refer b) l bs)
      (l.mapM f) := by
  apply Gives.mapM (Q := fun a c b => P a (refTo shapes b) c) Grows.refl Grows.trans _ hf
  intro a c b b' hc hb
  exact hstable a _ _ c hc fun s r hr => refTo_mono hb.seen hr

end Reads

omit [Fintype ι] [DecidableEq ι] in
theorem stable_ref (s : ι) : Stable (σ := σ) fun refer r => refer s = some r :=
  fun _ _ r hr h => h s r hr

theorem map_eq_map_of_forall₂ {f : α → γ} {g : β → γ} {l : List α} {l' : List β}
    (h : List.Forall₂ (fun a b => f a = g b) l l') : l.map f = l'.map g := by
  induction h with
  | nil => rfl
  | cons hab _ ih => rw [List.map_cons, List.map_cons, hab, ih]

/-- The walk from a shape answers the reference to it. -/
def Refers (shapes : Shapes ι) (fromRaw : ℕ → σ) (pending : Set ℕ)
    (refOf : ι → Build ι σ (SchemaRef σ)) : Prop :=
  ∀ s, Reads shapes fromRaw pending (fun refer r => refer s = some r) (refOf s)

variable {step : ι → Build ι σ (SchemaRef σ)}

/-- Resolving every reference of a kind resolves the kind. -/
theorem Refers.traverse (h : Refers shapes fromRaw pending step) (k : Kind ι) :
    Reads shapes fromRaw pending (fun refer k' => k.Resolves refer k') (k.traverse step) := by
  have hall : ∀ ts : List ι, Reads shapes fromRaw pending
      (fun refer rs => List.Forall₂ (fun t r => refer t = some r) ts rs) (ts.mapM step) :=
    fun ts => Reads.mapM stable_ref fun t _ => h t
  have hfields : ∀ fields : List (Field ι), Reads shapes fromRaw pending
      (fun refer xs => List.Forall₂ (fun f x => f.Resolves refer x) fields xs)
      (fields.mapM (Field.traverse step)) := by
    intro fields
    apply Reads.mapM fun f _ _ _ hx hmore => hx.mono hmore
    intro f _
    apply Reads.map (h f.schema)
    intro refer r hr
    simp [Field.Resolves, Field.mapRef, hr]
  cases k with
  | primitive p => exact Reads.pure fun _ => rfl
  | dynamic => exact Reads.pure fun _ => rfl
  | external kind metadata => exact Reads.pure fun _ => rfl
  | list t | set t | array t dimensions | tensor t rank | option t =>
    apply Reads.map (h t)
    intro refer r hr
    simp [Kind.Resolves, Kind.mapRef, hr]
  | map t t' =>
    apply Reads.map₂ (stable_ref t) (h t) (h t')
    intro refer r r' hr hr'
    simp [Kind.Resolves, Kind.mapRef, hr, hr']
  | tuple ts =>
    apply Reads.map (hall ts)
    intro refer rs hrs
    exact congrArg Kind.tuple (map_eq_map_of_forall₂ hrs)
  | struct name fields =>
    apply Reads.map (hfields fields)
    intro refer xs hxs
    exact congrArg (Kind.struct name) (map_eq_map_of_forall₂ hxs)
  | enum name variants =>
    apply Reads.map (P := fun refer vs =>
      List.Forall₂ (fun v v' => v.Resolves refer v') variants vs)
    · apply Reads.mapM fun v _ _ _ hv hmore => hv.mono hmore
      intro v _
      apply Reads.map (P := fun refer p => v.payload.mapRef refer = p.mapRef some)
      · cases v.payload with
        | unit => exact Reads.pure fun _ => rfl
        | newtype t =>
          apply Reads.map (h t)
          intro refer r hr
          simp [VariantPayload.mapRef, hr]
        | tuple ts =>
          apply Reads.map (hall ts)
          intro refer rs hrs
          exact congrArg VariantPayload.tuple (map_eq_map_of_forall₂ hrs)
        | struct fields =>
          apply Reads.map (hfields fields)
          intro refer xs hxs
          exact congrArg VariantPayload.struct (map_eq_map_of_forall₂ hxs)
      · intro refer p hp
        simp [Variant.Resolves, Variant.mapRef, hp]
    · intro refer vs hvs
      exact congrArg (Kind.enum name) (map_eq_map_of_forall₂ hvs)

/-- The batch after the placeholder for `s` is added. -/
def placed (shapes : Shapes ι) (fromRaw : ℕ → σ) (s : ι) (b : Builder ι σ) : Builder ι σ where
  schemas := b.schemas ++ [⟨fromRaw b.schemas.length, .dynamic⟩]
  seen := b.seen ++ [(ShapeKey.of shapes s, fromRaw b.schemas.length)]

/-- The batch after the kind of entry `i` is known. -/
def patched (i : ℕ) (kind : Kind (SchemaRef σ)) (b : Builder ι σ) : Builder ι σ :=
  { b with schemas := b.schemas.modify i fun schema => { schema with kind } }

omit [Fintype ι] in
theorem intern_some {kindOf : ι → Build ι σ (Kind (SchemaRef σ))} {s : ι} {b b' : Builder ι σ}
    {id : σ} (h : intern shapes fromRaw kindOf s b = some (id, b')) :
    (∃ key, (b.seen.find? fun e => e.1 = ShapeKey.of shapes s) = some (key, id) ∧ b' = b) ∨
      (b.seen.find? fun e => e.1 = ShapeKey.of shapes s) = none ∧
        id = fromRaw b.schemas.length ∧
        ∃ kind b₂, kindOf s (placed shapes fromRaw s b) = some (kind, b₂) ∧
          b' = patched b.schemas.length kind b₂ := by
  rw [intern] at h
  obtain ⟨b₀, b₁, hget, hrest⟩ := bind_some.1 h
  cases hget
  cases hfind : b.seen.find? fun e => e.1 = ShapeKey.of shapes s with
  | some e =>
    rw [hfind] at hrest
    cases hrest
    exact .inl ⟨e.1, rfl, rfl⟩
  | none =>
    rw [hfind] at hrest
    obtain ⟨_, _, hset, hrest⟩ := bind_some.1 hrest
    cases hset
    obtain ⟨kind, b₂, hkind, hrest⟩ := bind_some.1 hrest
    obtain ⟨_, _, hmodify, hpure⟩ := bind_some.1 hrest
    cases hmodify
    cases hpure
    exact .inr ⟨rfl, rfl, kind, b₂, hkind, rfl⟩

omit [Fintype ι] in
theorem intern_of_some {kindOf : ι → Build ι σ (Kind (SchemaRef σ))} {s : ι} {b : Builder ι σ}
    {e : ShapeKey ι × σ} (h : (b.seen.find? fun e => e.1 = ShapeKey.of shapes s) = some e) :
    intern shapes fromRaw kindOf s b = some (e.2, b) := by
  rw [intern]
  apply bind_some.2 ⟨b, b, rfl, _⟩
  rw [h]
  rfl

omit [Fintype ι] in
theorem intern_of_none {kindOf : ι → Build ι σ (Kind (SchemaRef σ))} {s : ι}
    {b b₂ : Builder ι σ} {kind : Kind (SchemaRef σ)}
    (h : (b.seen.find? fun e => e.1 = ShapeKey.of shapes s) = none)
    (hkind : kindOf s (placed shapes fromRaw s b) = some (kind, b₂)) :
    intern shapes fromRaw kindOf s b =
      some (fromRaw b.schemas.length, patched b.schemas.length kind b₂) := by
  rw [intern]
  apply bind_some.2 ⟨b, b, rfl, _⟩
  rw [h]
  apply bind_some.2 ⟨⟨⟩, placed shapes fromRaw s b, rfl, _⟩
  exact bind_some.2 ⟨kind, b₂, hkind, rfl⟩

theorem getElem?_concat_eq_some {l : List α} {a x : α} {i : ℕ} :
    (l ++ [a])[i]? = some x ↔ l[i]? = some x ∨ i = l.length ∧ x = a := by
  rcases Nat.lt_trichotomy i l.length with h | rfl | h
  · have hne : i ≠ l.length := by omega
    simp [List.getElem?_append_left h, hne]
  · simp [eq_comm]
  · have hne : i ≠ l.length := by omega
    have hnone : l[i]? = none := List.getElem?_eq_none (by omega)
    have hrest : (l ++ [a])[i]? = none := List.getElem?_eq_none (by simp; omega)
    simp [hnone, hrest, hne]

omit [Fintype ι] [DecidableEq ι] in
theorem grows_placed (s : ι) (b : Builder ι σ) : Grows b (placed shapes fromRaw s b) :=
  ⟨⟨_, rfl⟩, fun _ _ hi => getElem?_concat_eq_some.mpr (.inl hi)⟩

omit [Fintype ι] [DecidableEq ι] in
theorem patched_getElem? (n : ℕ) (kind : Kind (SchemaRef σ)) (b : Builder ι σ) (i : ℕ) :
    (patched n kind b).schemas[i]? =
      b.schemas[i]?.map fun schema => if n = i then { schema with kind } else schema :=
  List.getElem?_modify _ n b.schemas i

namespace Valid

variable {b : Builder ι σ}

theorem placed (h : Valid shapes fromRaw pending b) {s : ι}
    (hs : transparentPointee shapes s = none)
    (hnew : (b.seen.find? fun e => e.1 = ShapeKey.of shapes s) = none) :
    Valid shapes fromRaw (insert b.schemas.length pending) (placed shapes fromRaw s b) where
  seen_ids := by simp [Taxon.placed, h.seen_ids]
  ids := by
    intro i schema hi
    obtain hold | ⟨rfl, rfl⟩ := getElem?_concat_eq_some.mp hi
    · exact h.ids i schema hold
    · rfl
  keys := by
    rw [Taxon.placed, List.map_append, List.map_singleton, List.nodup_append]
    refine ⟨h.keys, by simp, ?_⟩
    intro k hk k' hk' heq
    obtain ⟨e, he, rfl⟩ := List.mem_map.mp hk
    have hno := List.find?_eq_none.mp hnew e he
    simp_all
  settled := by
    intro i e hi
    obtain hold | ⟨rfl, rfl⟩ := getElem?_concat_eq_some.mp hi
    · obtain ⟨hkey, hnone, hsettled⟩ := h.settled i e hold
      refine ⟨hkey, hnone, ?_⟩
      obtain hp | hdone := hsettled.mono (grows_placed s b)
      · exact .inl (.inr hp)
      · exact .inr hdone
    · exact ⟨rfl, hs, .inl (.inl h.length_seen)⟩

theorem patched {n : ℕ} (h : Valid shapes fromRaw (insert n pending) b) {e : ShapeKey ι × σ}
    {kind : Kind (SchemaRef σ)} (hn : b.seen[n]? = some e)
    (hkind : (shapeKind (shapes e.1.id)).Resolves (refTo shapes b) kind) :
    Valid shapes fromRaw pending (patched n kind b) where
  seen_ids := by
    rw [show (Taxon.patched n kind b).seen = b.seen from rfl, h.seen_ids]
    apply List.ext_getElem?
    intro i
    simp only [List.getElem?_map, patched_getElem?, Option.map_map]
    congr 1
    funext schema
    simp only [Function.comp]
    split <;> rfl
  ids := by
    intro i schema hi
    rw [patched_getElem?] at hi
    obtain ⟨old, hold, rfl⟩ := Option.map_eq_some_iff.mp hi
    rw [← h.ids i old hold]
    split <;> rfl
  keys := h.keys
  settled := by
    intro i e' hi
    obtain ⟨hkey, hnone, hsettled⟩ := h.settled i e' hi
    refine ⟨hkey, hnone, ?_⟩
    by_cases hni : n = i
    · subst hni
      obtain rfl : e = e' := Option.some.inj (hn.symm.trans hi)
      obtain ⟨old, hold⟩ : ∃ old, b.schemas[n]? = some old := by
        have hlt := (List.getElem?_eq_some_iff.mp hn).1
        rw [h.length_seen] at hlt
        exact ⟨_, List.getElem?_eq_getElem hlt⟩
      refine .inr ⟨{ old with kind }, ?_, hkind⟩
      simp [patched_getElem?, hold]
    · obtain (rfl | hp) | ⟨schema, hschema, hdone⟩ := hsettled
      · exact absurd rfl hni
      · exact .inl hp
      · refine .inr ⟨schema, ?_, hdone⟩
        simp [patched_getElem?, hschema, hni]

end Valid

theorem refTo_of_find? {b : Builder ι σ} {s : ι} (hs : transparentPointee shapes s = none)
    {key : ShapeKey ι} {id : σ}
    (h : (b.seen.find? fun e => e.1 = ShapeKey.of shapes s) = some (key, id)) :
    refTo shapes b s = some (.concrete id) := by
  rw [refTo, pointedTo_of_none hs, h, Option.map_some]

omit [Fintype ι] in
theorem find?_placed (fromRaw : ℕ → σ) {b : Builder ι σ} {s : ι}
    (hnew : (b.seen.find? fun e => e.1 = ShapeKey.of shapes s) = none) :
    ((placed shapes fromRaw s b).seen.find? fun e => e.1 = ShapeKey.of shapes s) =
      some (ShapeKey.of shapes s, fromRaw b.schemas.length) := by
  simp [placed, List.find?_append, hnew]

theorem reads_intern {kindOf : ι → Build ι σ (Kind (SchemaRef σ))} {s : ι}
    (hs : transparentPointee shapes s = none)
    (hkindOf : ∀ pending, Reads shapes fromRaw pending
      (fun refer k => (shapeKind (shapes s)).Resolves refer k) (kindOf s)) :
    Reads shapes fromRaw pending (fun refer id => refer s = some (.concrete id))
      (intern shapes fromRaw kindOf s) := by
  intro b id b' hb hrun
  obtain ⟨key, hfind, rfl⟩ | ⟨hnew, rfl, kind, b₂, hbelow, rfl⟩ := intern_some hrun
  · exact ⟨hb, Grows.refl b', refTo_of_find? hs hfind⟩
  · obtain ⟨hvalid, hgrows, hkind⟩ := hkindOf _ _ kind b₂ (hb.placed hs hnew) hbelow
    have hplace : b₂.seen[b.schemas.length]? =
        some (ShapeKey.of shapes s, fromRaw b.schemas.length) := by
      obtain ⟨rest, hrest⟩ := hgrows.seen
      simp [← hrest, placed, ← hb.length_seen]
    refine ⟨hvalid.patched hplace hkind, ?_, ?_⟩
    · have hold := Grows.trans _ _ _ (grows_placed s b) hgrows
      refine ⟨hold.seen, fun i schema hi => ?_⟩
      have hlt := (List.getElem?_eq_some_iff.mp hi).1
      have hne : b.schemas.length ≠ i := by omega
      simp [patched_getElem?, hold.schemas i schema hi, hne]
    · have href := refTo_of_find? hs (find?_placed fromRaw hnew)
      exact refTo_mono hgrows.seen href

/-- The walk from a shape keeps the batch valid, adds to it and answers the shape's reference. -/
theorem refers_refOf (hend : PointersEnd shapes) (depth : ℕ) :
    (∀ pending, Refers shapes fromRaw pending (refOf shapes fromRaw depth)) ∧
      ∀ s, transparentPointee shapes s = none → ∀ pending,
        Reads shapes fromRaw pending (fun refer k => (shapeKind (shapes s)).Resolves refer k)
          (kindOf shapes fromRaw depth s) := by
  induction depth with
  | zero =>
    constructor
    · intro pending s b r b' _ hrun
      cases hrun
    · intro s _ pending b k b' _ hrun
      cases hrun
  | succ depth ih =>
    constructor
    · intro pending s
      rw [refOf]
      cases hs : transparentPointee shapes s with
      | some t =>
        intro b r b' hb hrun
        obtain ⟨hvalid, hgrows, hr⟩ := ih.1 pending t b r b' hb hrun
        refine ⟨hvalid, hgrows, ?_⟩
        calc refTo shapes b' s = refTo shapes b' t := by
              rw [refTo, refTo, pointedTo_of_some hend hs]
          _ = some r := hr
      | none => exact Reads.map (reads_intern hs (ih.2 s hs)) fun _ _ hid => hid
    · intro s hs pending
      rw [kindOf]
      rw [kindOfShape_eq_traverse _ _ hs]
      exact (ih.1 pending).traverse _

end Steps

end Ids

end Facet.Taxon
