import Mathlib.Data.List.Forall2
import Mathlib.Order.Filter.AtTopBot.Basic

/-!
# Stateful steps that can fail

Rules for steps of type `StateT σ Option α`: when a step succeeds from every state of an
invariant, which relation between the states before and after it keeps, and how both
carry over to sequences of steps. Recursions spend a budget, and what holds of every
large enough budget is said with `∀ᶠ`.
-/

namespace OptionState

universe u

variable {σ α β : Type u} {I : σ → Prop} {R : σ → σ → Prop}

theorem bind_some {x : StateT σ Option α} {f : α → StateT σ Option β} {s : σ} {r : β × σ} :
    (x >>= f) s = some r ↔ ∃ a s', x s = some (a, s') ∧ f a s' = some r := by
  simp only [bind, StateT.bind, Option.bind_eq_some_iff, Prod.exists]

theorem lift_some {o : Option α} {s s' : σ} {a : α} :
    (liftM o : StateT σ Option α) s = some (a, s') ↔ o = some a ∧ s = s' := by
  cases o with
  | none =>
    constructor
    · rintro ⟨⟩
    · rintro ⟨⟨⟩, _⟩
  | some b =>
    constructor
    · intro h
      cases h
      exact ⟨rfl, rfl⟩
    · rintro ⟨⟨⟩, rfl⟩
      rfl

theorem lift_bind_congr {o : Option α} {f g : α → StateT σ Option β}
    (h : ∀ a, o = some a → f a = g a) : (liftM o >>= f) = (liftM o >>= g) := by
  cases o with
  | none => rfl
  | some a => exact h a rfl

theorem forM_congr {l : List α} {f g : α → StateT σ Option PUnit} (h : ∀ a ∈ l, f a = g a) :
    l.forM f = l.forM g := by
  induction l with
  | nil => rfl
  | cons a l ih =>
    have hl := ih fun b hb => h b (List.mem_cons_of_mem a hb)
    have ha := h a List.mem_cons_self
    exact congrArg₂ (fun x y => x >>= fun _ => y) ha hl

/-- From every state of the invariant the step succeeds, and the relation holds. -/
def Succeeds (I : σ → Prop) (R : σ → σ → Prop) (x : StateT σ Option α) : Prop :=
  ∀ s, I s → ∃ a s', x s = some (a, s') ∧ R s s'

/-- The relation holds between the states around every successful run of the step. -/
def Keeps (R : σ → σ → Prop) (x : StateT σ Option α) : Prop :=
  ∀ s a s', x s = some (a, s') → R s s'

/-- A preorder on states under which the invariant is stable. -/
structure Frame (I : σ → Prop) (R : σ → σ → Prop) : Prop where
  refl : ∀ s, R s s
  trans : ∀ {s t u}, R s t → R t u → R s u
  stable : ∀ {s t}, I s → R s t → I t

namespace Succeeds

theorem pure (h : Frame I R) (a : α) : Succeeds I R (pure a : StateT σ Option α) :=
  fun s _ => ⟨a, s, rfl, h.refl s⟩

theorem modify {f : σ → σ} (h : ∀ s, I s → R s (f s)) :
    Succeeds I R (modify f : StateT σ Option PUnit) :=
  fun s hs => ⟨⟨⟩, f s, rfl, h s hs⟩

theorem bind (h : Frame I R) {x : StateT σ Option α} {f : α → StateT σ Option β}
    (hx : Succeeds I R x) (hf : ∀ a, Succeeds I R (f a)) : Succeeds I R (x >>= f) := by
  intro s hs
  obtain ⟨a, t, ht, hst⟩ := hx s hs
  obtain ⟨b, u, hu, htu⟩ := hf a t (h.stable hs hst)
  exact ⟨b, u, bind_some.2 ⟨a, t, ht, hu⟩, h.trans hst htu⟩

theorem lift_bind {o : Option α} {a : α} {f : α → StateT σ Option β} (ho : o = some a)
    (hf : Succeeds I R (f a)) : Succeeds I R (liftM o >>= f) := by
  subst ho
  exact hf

theorem forM (h : Frame I R) {l : List α} {f : α → StateT σ Option PUnit}
    (hf : ∀ a ∈ l, Succeeds I R (f a)) : Succeeds I R (l.forM f) := by
  induction l with
  | nil => exact pure h PUnit.unit
  | cons a l ih =>
    apply bind h (hf a List.mem_cons_self)
    intro _
    exact ih fun b hb => hf b (List.mem_cons_of_mem a hb)

end Succeeds

namespace Keeps

theorem pure (h : Frame I R) (a : α) : Keeps R (pure a : StateT σ Option α) := by
  rintro s _ _ ⟨⟩
  exact h.refl s

theorem modify {f : σ → σ} (h : ∀ s, R s (f s)) :
    Keeps R (modify f : StateT σ Option PUnit) := by
  rintro s _ _ ⟨⟩
  exact h s

theorem bind (h : Frame I R) {x : StateT σ Option α} {f : α → StateT σ Option β}
    (hx : Keeps R x) (hf : ∀ a, Keeps R (f a)) : Keeps R (x >>= f) := by
  intro s b u hu
  obtain ⟨a, t, ht, hu⟩ := bind_some.1 hu
  exact h.trans (hx s a t ht) (hf a t b u hu)

theorem lift (h : Frame I R) (o : Option α) : Keeps R (liftM o : StateT σ Option α) := by
  intro s a s' hs
  obtain ⟨-, rfl⟩ := lift_some.1 hs
  exact h.refl s

theorem forM (h : Frame I R) {l : List α} {f : α → StateT σ Option PUnit}
    (hf : ∀ a ∈ l, Keeps R (f a)) : Keeps R (l.forM f) := by
  induction l with
  | nil => exact pure h PUnit.unit
  | cons a l ih =>
    apply bind h (hf a List.mem_cons_self)
    intro _
    exact ih fun b hb => hf b (List.mem_cons_of_mem a hb)

end Keeps

/-- In a successful run over a list every element has had its own successful run. -/
theorem forM_some (h : Frame I R) {l : List α} {f : α → StateT σ Option PUnit} {s s' : σ}
    {u : PUnit} (hf : ∀ a ∈ l, Keeps R (f a)) (hs : l.forM f s = some (u, s')) :
    ∀ a ∈ l, ∃ t u t', f a t = some (u, t') ∧ R t' s' := by
  induction l generalizing s with
  | nil => simp
  | cons a l ih =>
    obtain ⟨v, t, ht, hl⟩ := bind_some.1 hs
    intro b hb
    cases List.mem_cons.1 hb with
    | inl hba =>
      subst hba
      have hrest := Keeps.forM h fun c hc => hf c (List.mem_cons_of_mem b hc)
      exact ⟨s, v, t, ht, hrest t u s' hl⟩
    | inr hbl => exact ih (fun c hc => hf c (List.mem_cons_of_mem a hc)) hl b hbl

/-- A run from a state of the invariant that ends keeps the invariant, and shows the proposition. -/
def Shows (I : σ → Prop) (C : Prop) (x : StateT σ Option α) : Prop :=
  ∀ s a s', I s → x s = some (a, s') → I s' ∧ C

namespace Shows

variable {C D : Prop} {x : StateT σ Option α} {f : α → StateT σ Option β}

theorem mono (h : Shows I C x) (hCD : C → D) : Shows I D x :=
  fun s a s' hs hrun => (h s a s' hs hrun).imp_right hCD

theorem pure (a : α) : Shows I True (pure a : StateT σ Option α) := by
  rintro s _ _ hs ⟨⟩
  exact ⟨hs, trivial⟩

theorem modify {f : σ → σ} (h : ∀ s, I s → I (f s)) :
    Shows I True (modify f : StateT σ Option PUnit) := by
  rintro s _ _ hs ⟨⟩
  exact ⟨h s hs, trivial⟩

theorem bind (hx : Shows I C x) (hf : ∀ a, Shows I D (f a)) : Shows I (C ∧ D) (x >>= f) := by
  intro s b u hs hrun
  obtain ⟨a, t, ht, hrest⟩ := bind_some.1 hrun
  obtain ⟨hI, hC⟩ := hx s a t hs ht
  obtain ⟨hI', hD⟩ := hf a t b u hI hrest
  exact ⟨hI', hC, hD⟩

theorem bind_left (hx : Shows I C x) (hf : ∀ a, Shows I True (f a)) : Shows I C (x >>= f) :=
  (hx.bind hf).mono And.left

theorem bind_right (hx : Shows I True x) (hf : ∀ a, Shows I D (f a)) : Shows I D (x >>= f) :=
  (hx.bind hf).mono And.right

theorem lift_bind {o : Option α} (hf : ∀ a, o = some a → Shows I C (f a)) :
    Shows I C (liftM o >>= f) := by
  intro s b u hs hrun
  obtain ⟨a, t, ht, hrest⟩ := bind_some.1 hrun
  obtain ⟨ha, rfl⟩ := lift_some.1 ht
  exact hf a ha s b u hs hrest

theorem forM {l : List α} {f : α → StateT σ Option PUnit} {C : α → Prop}
    (hf : ∀ a ∈ l, Shows I (C a) (f a)) : Shows I (∀ a ∈ l, C a) (l.forM f) := by
  induction l with
  | nil => exact (pure PUnit.unit).mono (by simp)
  | cons a l ih =>
    have hrest := ih fun b hb => hf b (List.mem_cons_of_mem a hb)
    exact ((hf a List.mem_cons_self).bind fun _ => hrest).mono List.forall_mem_cons.2

end Shows

/-- From a state of the invariant a successful run keeps the invariant and the relation, and
gives a result that is as described. -/
def Gives (I : σ → Prop) (R : σ → σ → Prop) (Q : α → σ → Prop) (x : StateT σ Option α) : Prop :=
  ∀ s a s', I s → x s = some (a, s') → I s' ∧ R s s' ∧ Q a s'

theorem map_some {x : StateT σ Option α} {g : α → β} {s s' : σ} {b : β} :
    (x >>= fun a => pure (g a)) s = some (b, s') ↔ ∃ a, x s = some (a, s') ∧ g a = b := by
  rw [bind_some]
  constructor
  · rintro ⟨a, t, ht, hpure⟩
    cases hpure
    exact ⟨a, ht, rfl⟩
  · rintro ⟨a, ht, rfl⟩
    exact ⟨a, s', ht, rfl⟩

namespace Gives

variable {γ : Type u} {Q : α → σ → Prop} {Q' : β → σ → Prop} {x : StateT σ Option α}

theorem pure (hrefl : ∀ s, R s s) {a : α} (ha : ∀ s, I s → Q a s) :
    Gives I R Q (pure a : StateT σ Option α) := by
  intro s b s' hs hrun
  cases hrun
  exact ⟨hs, hrefl s, ha s hs⟩

theorem map {g : α → β} (hx : Gives I R Q x) (hg : ∀ a s, Q a s → Q' (g a) s) :
    Gives I R Q' (x >>= fun a => Pure.pure (g a)) := by
  intro s b s' hs hrun
  obtain ⟨a, ha, rfl⟩ := map_some.1 hrun
  obtain ⟨hI, hR, hQ⟩ := hx s a s' hs ha
  exact ⟨hI, hR, hg a s' hQ⟩

theorem map₂ {y : StateT σ Option β} {Q'' : γ → σ → Prop} {g : α → β → γ}
    (htrans : ∀ s t u, R s t → R t u → R s u)
    (hstable : ∀ a s t, Q a s → R s t → Q a t) (hx : Gives I R Q x) (hy : Gives I R Q' y)
    (hg : ∀ a b s, Q a s → Q' b s → Q'' (g a b) s) :
    Gives I R Q'' (x >>= fun a => y >>= fun b => Pure.pure (g a b)) := by
  intro s c u hs hrun
  obtain ⟨a, t, ha, hrest⟩ := bind_some.1 hrun
  obtain ⟨b, hb, rfl⟩ := map_some.1 hrest
  obtain ⟨hI, hst, hQ⟩ := hx s a t hs ha
  obtain ⟨hI', htu, hQ'⟩ := hy t b u hI hb
  exact ⟨hI', htrans s t u hst htu, hg a b u (hstable a t u hQ htu) hQ'⟩

theorem mapM {Q : α → β → σ → Prop} (hrefl : ∀ s, R s s)
    (htrans : ∀ s t u, R s t → R t u → R s u)
    (hstable : ∀ a b s t, Q a b s → R s t → Q a b t) {l : List α}
    {f : α → StateT σ Option β} (hf : ∀ a ∈ l, Gives I R (Q a) (f a)) :
    Gives I R (fun bs s => List.Forall₂ (fun a b => Q a b s) l bs) (l.mapM f) := by
  induction l with
  | nil =>
    rw [List.mapM_nil]
    exact pure hrefl fun s _ => .nil
  | cons a l ih =>
    rw [List.mapM_cons]
    apply map₂ htrans (hstable a) (hf a List.mem_cons_self)
      (ih fun b hb => hf b (List.mem_cons_of_mem a hb))
    intro b bs s hb hbs
    exact .cons hb hbs

end Gives

namespace Succeeds

theorem map (h : Frame I R) {x : StateT σ Option α} {g : α → β} (hx : Succeeds I R x) :
    Succeeds I R (x >>= fun a => Pure.pure (g a)) :=
  bind h hx fun a => pure h (g a)

theorem mapM (h : Frame I R) {l : List α} {f : α → StateT σ Option β}
    (hf : ∀ a ∈ l, Succeeds I R (f a)) : Succeeds I R (l.mapM f) := by
  induction l with
  | nil =>
    rw [List.mapM_nil]
    exact pure h []
  | cons a l ih =>
    rw [List.mapM_cons]
    apply bind h (hf a List.mem_cons_self)
    intro b
    exact map h (ih fun c hc => hf c (List.mem_cons_of_mem a hc))

end Succeeds

/-- Whenever the first step succeeds, so does the second, with the same outcome. -/
def Below (x y : StateT σ Option α) : Prop := ∀ s r, x s = some r → y s = some r

namespace Below

theorem refl (x : StateT σ Option α) : Below x x := fun _ _ => id

theorem bind {x y : StateT σ Option α} {f g : α → StateT σ Option β} (hxy : Below x y)
    (hfg : ∀ a, Below (f a) (g a)) : Below (x >>= f) (y >>= g) := by
  intro s r h
  obtain ⟨a, t, ht, hr⟩ := bind_some.1 h
  exact bind_some.2 ⟨a, t, hxy s (a, t) ht, hfg a t r hr⟩

theorem mapM {l : List α} {f g : α → StateT σ Option β} (hfg : ∀ a, Below (f a) (g a)) :
    Below (l.mapM f) (l.mapM g) := by
  induction l with
  | nil => exact refl _
  | cons a l ih =>
    rw [List.mapM_cons, List.mapM_cons]
    exact bind (hfg a) fun b => bind ih fun bs => refl _

end Below

end OptionState

/-- A budget that is large enough stays so when some of it is spent. -/
theorem Filter.eventually_add_iff {P : ℕ → Prop} (k : ℕ) :
    (∀ᶠ n in atTop, P (n + k)) ↔ ∀ᶠ n in atTop, P n := by
  rw [← eventually_map (P := P), map_add_atTop_eq_nat]
