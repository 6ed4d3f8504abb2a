import Facet.Taxon.Batch

/-!
# The walk ends

Every id handed out leaves one shape fewer without an id, and pointers end. So there is a
depth at which the walk succeeds from every batch, and at a larger depth it succeeds with
the same outcome.
-/

namespace Facet.Taxon

open Filter OptionState

variable {ι σ : Type}

section Traverse

variable {ρ τ ω : Type} {I : ω → Prop} {R : ω → ω → Prop}

theorem VariantPayload.succeeds_traverse (hframe : Frame I R) {f : ρ → StateT ω Option τ}
    (hf : ∀ r, Succeeds I R (f r)) (p : VariantPayload ρ) : Succeeds I R (p.traverse f) := by
  cases p with
  | unit => exact Succeeds.pure hframe _
  | newtype r => exact Succeeds.map hframe (hf r)
  | tuple rs => exact Succeeds.map hframe (Succeeds.mapM hframe fun r _ => hf r)
  | struct fields =>
    apply Succeeds.map hframe
    apply Succeeds.mapM hframe
    intro x _
    exact Succeeds.map hframe (hf x.schema)

theorem Kind.succeeds_traverse (hframe : Frame I R) {f : ρ → StateT ω Option τ}
    (hf : ∀ r, Succeeds I R (f r)) (k : Kind ρ) : Succeeds I R (k.traverse f) := by
  cases k with
  | primitive p => exact Succeeds.pure hframe _
  | dynamic => exact Succeeds.pure hframe _
  | external kind metadata => exact Succeeds.pure hframe _
  | list r | set r | array r dimensions | tensor r rank | option r =>
    exact Succeeds.map hframe (hf r)
  | map r r' => exact Succeeds.bind hframe (hf r) fun _ => Succeeds.map hframe (hf r')
  | tuple rs => exact Succeeds.map hframe (Succeeds.mapM hframe fun r _ => hf r)
  | struct name fields =>
    apply Succeeds.map hframe
    apply Succeeds.mapM hframe
    intro x _
    exact Succeeds.map hframe (hf x.schema)
  | enum name variants =>
    apply Succeeds.map hframe
    apply Succeeds.mapM hframe
    intro v _
    exact Succeeds.map hframe (v.payload.succeeds_traverse hframe hf)

theorem VariantPayload.below_traverse {f g : ρ → StateT ω Option τ}
    (hfg : ∀ r, Below (f r) (g r)) (p : VariantPayload ρ) :
    Below (p.traverse f) (p.traverse g) := by
  cases p with
  | unit => exact Below.refl _
  | newtype r => exact Below.bind (hfg r) fun _ => Below.refl _
  | tuple rs => exact Below.bind (Below.mapM hfg) fun _ => Below.refl _
  | struct fields =>
    apply Below.bind _ fun _ => Below.refl _
    apply Below.mapM
    intro x
    exact Below.bind (hfg x.schema) fun _ => Below.refl _

theorem Kind.below_traverse {f g : ρ → StateT ω Option τ} (hfg : ∀ r, Below (f r) (g r))
    (k : Kind ρ) : Below (k.traverse f) (k.traverse g) := by
  cases k with
  | primitive p => exact Below.refl _
  | dynamic => exact Below.refl _
  | external kind metadata => exact Below.refl _
  | list r | set r | array r dimensions | tensor r rank | option r =>
    exact Below.bind (hfg r) fun _ => Below.refl _
  | map r r' =>
    exact Below.bind (hfg r) fun _ => Below.bind (hfg r') fun _ => Below.refl _
  | tuple rs => exact Below.bind (Below.mapM hfg) fun _ => Below.refl _
  | struct name fields =>
    apply Below.bind _ fun _ => Below.refl _
    apply Below.mapM
    intro x
    exact Below.bind (hfg x.schema) fun _ => Below.refl _
  | enum name variants =>
    apply Below.bind _ fun _ => Below.refl _
    apply Below.mapM
    intro v
    exact Below.bind (v.payload.below_traverse hfg) fun _ => Below.refl _

end Traverse

variable [DecidableEq ι] {shapes : Shapes ι} {fromRaw : ℕ → σ}

theorem intern_below {kindOf kindOf' : ι → Build ι σ (Kind (SchemaRef σ))} {s : ι}
    (h : Below (kindOf s) (kindOf' s)) :
    Below (intern shapes fromRaw kindOf s) (intern shapes fromRaw kindOf' s) := by
  apply Below.bind (Below.refl _)
  intro b
  cases b.seen.find? fun e => e.1 = ShapeKey.of shapes s with
  | some e => exact Below.refl _
  | none =>
    apply Below.bind (Below.refl _)
    intro _
    exact Below.bind h fun _ => Below.refl _

theorem refOf_succ (depth : ℕ) :
    (∀ s, Below (refOf shapes fromRaw depth s) (refOf shapes fromRaw (depth + 1) s)) ∧
      ∀ s, transparentPointee shapes s = none →
        Below (kindOf shapes fromRaw depth s) (kindOf shapes fromRaw (depth + 1) s) := by
  induction depth with
  | zero =>
    constructor
    · intro s b r h
      cases h
    · intro s _ b r h
      cases h
  | succ depth ih =>
    constructor
    · intro s
      rw [refOf, refOf]
      cases hs : transparentPointee shapes s with
      | some t => exact ih.1 t
      | none => exact Below.bind (intern_below (ih.2 s hs)) fun _ => Below.refl _
    · intro s hs
      rw [kindOf, kindOf, kindOfShape_eq_traverse _ _ hs, kindOfShape_eq_traverse _ _ hs]
      exact Kind.below_traverse ih.1 _

theorem refOf_mono {depth depth' : ℕ} (h : depth ≤ depth') (s : ι) :
    Below (refOf shapes fromRaw depth s) (refOf shapes fromRaw depth' s) := by
  induction depth', h using Nat.le_induction with
  | base => exact Below.refl _
  | succ depth' _ ih => exact fun b r hb => (refOf_succ depth').1 s b r (ih b r hb)

section Enough

variable [Fintype ι]

/-- How many shapes have no id yet. -/
def unseen (shapes : Shapes ι) (b : Builder ι σ) : ℕ :=
  (Finset.univ.filter fun s => ShapeKey.of shapes s ∉ b.seen.map Prod.fst).card

theorem unseen_le {b b' : Builder ι σ} (h : b.seen <+: b'.seen) :
    unseen shapes b' ≤ unseen shapes b := by
  apply Finset.card_le_card
  intro s hs
  simp only [Finset.mem_filter, Finset.mem_univ, true_and] at hs ⊢
  exact fun hmem => hs ((h.map Prod.fst).subset hmem)

theorem unseen_placed (fromRaw : ℕ → σ) {b : Builder ι σ} {s : ι}
    (hnew : (b.seen.find? fun e => e.1 = ShapeKey.of shapes s) = none) :
    unseen shapes (placed shapes fromRaw s b) < unseen shapes b := by
  apply Finset.card_lt_card
  rw [Finset.ssubset_iff_of_subset]
  · have hhad : ShapeKey.of shapes s ∈ (placed shapes fromRaw s b).seen.map Prod.fst := by
      simp [placed]
    refine ⟨s, ?_, fun hs => (Finset.mem_filter.mp hs).2 hhad⟩
    simp only [Finset.mem_filter, Finset.mem_univ, true_and, List.mem_map, not_exists, not_and]
    intro e he heq
    simpa [heq] using List.find?_eq_none.mp hnew e he
  · intro t ht
    simp only [Finset.mem_filter, Finset.mem_univ, true_and] at ht ⊢
    exact fun hmem => ht (by simp [placed, hmem])

theorem frame_unseen (k : ℕ) :
    Frame (fun b : Builder ι σ => unseen shapes b ≤ k) fun b b' => b.seen <+: b'.seen where
  refl _ := List.prefix_rfl
  trans h h' := h.trans h'
  stable hb h := (unseen_le h).trans hb

/-- The walk from `s` succeeds on every batch that misses at most `k` shapes. -/
def Ends (shapes : Shapes ι) (fromRaw : ℕ → σ) (k : ℕ) (s : ι) : Prop :=
  ∀ᶠ depth in atTop, Succeeds (fun b => unseen shapes b ≤ k) (fun b b' => b.seen <+: b'.seen)
    (refOf shapes fromRaw depth s)

theorem succeeds_intern {k : ℕ} {kindOf : ι → Build ι σ (Kind (SchemaRef σ))} {s : ι}
    (hkindOf : ∀ k', k = k' + 1 → Succeeds (fun b => unseen shapes b ≤ k')
      (fun b b' => b.seen <+: b'.seen) (kindOf s)) :
    Succeeds (fun b => unseen shapes b ≤ k) (fun b b' => b.seen <+: b'.seen)
      (intern shapes fromRaw kindOf s) := by
  intro b hb
  cases hfind : b.seen.find? fun e => e.1 = ShapeKey.of shapes s with
  | some e => exact ⟨e.2, b, intern_of_some hfind, List.prefix_rfl⟩
  | none =>
    have hless := unseen_placed fromRaw hfind
    obtain ⟨kind, b₂, hrun, hprefix⟩ :=
      hkindOf (k - 1) (by omega) (placed shapes fromRaw s b) (by omega)
    refine ⟨_, _, intern_of_none hfind hrun, ?_⟩
    exact (grows_placed s b).seen.trans hprefix

/-- A shape that is no transparent pointer uses up one of the missing shapes. -/
theorem ends_of_none {k : ℕ} (hless : ∀ k', k = k' + 1 → ∀ t, Ends shapes fromRaw k' t) {s : ι}
    (hs : transparentPointee shapes s = none) : Ends shapes fromRaw k s := by
  have hall : ∀ᶠ depth in atTop, ∀ k', k = k' + 1 → ∀ t,
      Succeeds (fun b => unseen shapes b ≤ k') (fun b b' => b.seen <+: b'.seen)
        (refOf shapes fromRaw depth t) := by
    cases k with
    | zero => exact .of_forall fun _ _ h => absurd h (by omega)
    | succ k =>
      filter_upwards [eventually_all.mpr (hless k rfl)] with depth hdepth k' hk' t
      obtain rfl : k = k' := by omega
      exact hdepth t
  apply (Filter.eventually_add_iff 2).mp
  filter_upwards [hall] with depth hdepth
  rw [refOf, hs]
  apply Succeeds.map (frame_unseen k)
  apply succeeds_intern
  intro k' hk'
  rw [kindOf, kindOfShape_eq_traverse _ _ hs]
  exact Kind.succeeds_traverse (frame_unseen k') (hdepth k' hk') _

theorem ends_of_some {k : ℕ} {s t : ι} (hs : transparentPointee shapes s = some t)
    (ht : Ends shapes fromRaw k t) : Ends shapes fromRaw k s := by
  apply (Filter.eventually_add_iff 1).mp
  filter_upwards [ht] with depth hdepth
  rw [refOf, hs]
  exact hdepth

theorem ends (fromRaw : ℕ → σ) (hend : PointersEnd shapes) (k : ℕ) (s : ι) : Ends shapes fromRaw k s := by
  induction k using Nat.strong_induction_on generalizing s with
  | _ k ih =>
    have hless : ∀ k', k = k' + 1 → ∀ t, Ends shapes fromRaw k' t :=
      fun k' hk' t => ih k' (by omega) t
    -- follow the pointers from `s`, of which there are finitely many
    have hchain : ∀ n s, transparentPointee shapes ((hop shapes)^[n] s) = none →
        Ends shapes fromRaw k s := by
      intro n
      induction n with
      | zero => exact fun s hs => ends_of_none hless hs
      | succ n ihn =>
        intro s hs
        cases hnext : transparentPointee shapes s with
        | none => exact ends_of_none hless hnext
        | some t =>
          rw [Function.iterate_succ_apply, hop_of_some hnext] at hs
          exact ends_of_some hnext (ihn t hs)
    exact hchain _ s (transparentPointee_pointedTo hend s)

theorem eventually_walked (fromRaw : ℕ → σ) (hend : PointersEnd shapes) (root : ι) :
    ∃ r b, ∀ᶠ depth in atTop, refOf shapes fromRaw depth root {} = some (r, b) := by
  obtain ⟨depth, hdepth⟩ := (ends fromRaw hend _ root).exists
  obtain ⟨r, b, hrun, -⟩ := hdepth {} le_rfl
  refine ⟨r, b, ?_⟩
  filter_upwards [eventually_ge_atTop depth] with depth' hle
  exact refOf_mono hle root _ _ hrun

end Enough

end Facet.Taxon
