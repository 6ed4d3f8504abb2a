import Facet.Lib.ExceptList
import Facet.Lib.Fuel
import Mathlib.Data.List.Forall2

/-!
# Passing a state through a list

A fallible step with a state is run on each member of a list, and the results are collected. What
holds of the states, of the way they grow and of the results after one step holds after all.
-/

namespace StatePass

variable {σ ε α β : Type}

/-- The step on each member in turn, with the results in order. -/
def mapAccumM (f : σ → α → Except ε (σ × β)) : List α → σ → Except ε (σ × List β)
  | [], s => .ok (s, [])
  | x :: xs, s => do
    let (s, y) ← f s x
    let (s, ys) ← mapAccumM f xs s
    return (s, y :: ys)

/-- From a good state a good one is reached that the first one grows into, and the result is right
there. -/
def Keeps (Good : σ → Prop) (Grows : σ → σ → Prop) (Right : σ → α → Prop)
    (f : σ → Except ε (σ × α)) : Prop :=
  ∀ ⦃s s' a⦄, Good s → f s = .ok (s', a) → Good s' ∧ Grows s s' ∧ Right s' a

/-- From a good state the bound of the first computation is large enough, and the second one does
the same. -/
def Settles (out : ε) (Good : σ → Prop) (f g : σ → Except ε α) : Prop :=
  ∀ ⦃s⦄, Good s → Fuel.Finished out (f s) ∧ g s = f s

variable {Good : σ → Prop} {Grows : σ → σ → Prop} {Right : σ → β → Prop} {out : ε}
  {f : σ → α → Except ε (σ × β)} {xs : List α}

theorem mapAccumM_cons_ok {x : α} {s s' : σ} {ys : List β}
    (h : mapAccumM f (x :: xs) s = .ok (s', ys)) :
    ∃ t y zs, f s x = .ok (t, y) ∧ mapAccumM f xs t = .ok (s', zs) ∧ ys = y :: zs := by
  rw [mapAccumM] at h
  obtain ⟨⟨t, y⟩, hx, h⟩ := ExceptList.exists_of_bind_ok h
  obtain ⟨⟨u, zs⟩, hxs, h⟩ := ExceptList.exists_of_bind_ok h
  cases h
  exact ⟨t, y, zs, hx, hxs, rfl⟩

/-- Each result is right for its member, also after the steps that follow. -/
theorem Keeps.mapAccumM_forall₂ (RightFor : σ → α → β → Prop) (hrefl : ∀ s, Grows s s)
    (htrans : ∀ {s t u}, Grows s t → Grows t u → Grows s u)
    (hstable : ∀ {s t x y}, Grows s t → RightFor s x y → RightFor t x y)
    (h : ∀ x ∈ xs, Keeps Good Grows (fun s y => RightFor s x y) fun s => f s x) :
    Keeps Good Grows (fun s ys => List.Forall₂ (RightFor s) xs ys) (mapAccumM f xs) := by
  induction xs with
  | nil =>
    intro s s' ys hs hrun
    cases hrun
    exact ⟨hs, hrefl s, .nil⟩
  | cons x xs ih =>
    intro s s' ys hs hrun
    obtain ⟨t, y, zs, hx, hxs, rfl⟩ := mapAccumM_cons_ok hrun
    obtain ⟨ht, hst, hy⟩ := h x List.mem_cons_self hs hx
    obtain ⟨hs', hts', hzs⟩ := ih (fun z hz => h z (List.mem_cons_of_mem x hz)) ht hxs
    exact ⟨hs', htrans hst hts', .cons (hstable hts' hy) hzs⟩

theorem forall_mem_of_forall₂ {R : α → β → Prop} {P : β → Prop} {ys : List β}
    (h : List.Forall₂ R xs ys) (hP : ∀ {x y}, R x y → P y) : ∀ y ∈ ys, P y := by
  induction h with
  | nil => simp
  | cons hxy _ ih => simpa using ⟨hP hxy, ih⟩

theorem map_eq_of_forall₂ {R : α → β → Prop} {g : β → α} {ys : List β}
    (h : List.Forall₂ R xs ys) (hg : ∀ {x y}, R x y → g y = x) : ys.map g = xs := by
  induction h with
  | nil => rfl
  | cons hxy _ ih => rw [List.map_cons, hg hxy, ih]

theorem Keeps.mapAccumM (hrefl : ∀ s, Grows s s)
    (htrans : ∀ {s t u}, Grows s t → Grows t u → Grows s u)
    (hstable : ∀ {s t y}, Grows s t → Right s y → Right t y)
    (h : ∀ x ∈ xs, Keeps Good Grows Right fun s => f s x) :
    Keeps Good Grows (fun s ys => ∀ y ∈ ys, Right s y) (mapAccumM f xs) := by
  intro s s' ys hs hrun
  obtain ⟨hs', hgrows, hall⟩ := Keeps.mapAccumM_forall₂ (fun s _ y => Right s y) hrefl htrans
    hstable h hs hrun
  exact ⟨hs', hgrows, forall_mem_of_forall₂ hall id⟩

theorem Keeps.mapAccumM_map {g : β → α} (hrefl : ∀ s, Grows s s)
    (htrans : ∀ {s t u}, Grows s t → Grows t u → Grows s u)
    (hstable : ∀ {s t y}, Grows s t → Right s y → Right t y)
    (h : ∀ x ∈ xs, Keeps Good Grows (fun s y => Right s y ∧ g y = x) fun s => f s x) :
    Keeps Good Grows (fun s ys => (∀ y ∈ ys, Right s y) ∧ ys.map g = xs)
      (StatePass.mapAccumM f xs) := by
  intro s s' ys hs hrun
  obtain ⟨hs', hgrows, hall⟩ := Keeps.mapAccumM_forall₂ (fun s x y => Right s y ∧ g y = x)
    hrefl htrans
    (fun hgrows hright => ⟨hstable hgrows hright.1, hright.2⟩) h hs hrun
  exact ⟨hs', hgrows, forall_mem_of_forall₂ hall (·.1), map_eq_of_forall₂ hall (·.2)⟩

theorem mapAccumM_length {s s' : σ} {ys : List β} (h : mapAccumM f xs s = .ok (s', ys)) :
    ys.length = xs.length := by
  induction xs generalizing s ys with
  | nil =>
    cases h
    rfl
  | cons x xs ih =>
    obtain ⟨t, y, zs, -, hxs, rfl⟩ := mapAccumM_cons_ok h
    simp [ih hxs]

theorem Settles.bind {g : σ → Except ε (σ × α)} {g' : σ → Except ε (σ × α)}
    {k k' : σ × α → Except ε β} {s : σ} (hs : Good s) (hg : Settles out Good g g')
    (hk : ∀ r, g s = .ok r → Fuel.Finished out (k r) ∧ k' r = k r) :
    Fuel.Finished out (g s >>= k) ∧ (g' s >>= k') = g s >>= k := by
  obtain ⟨hfinished, heq⟩ := hg hs
  refine ⟨hfinished.bind fun r hr => (hk r hr).1, ?_⟩
  rw [heq]
  cases hrun : g s with
  | error e => rfl
  | ok r => exact (hk r hrun).2

theorem Settles.mapAccumM {g : σ → α → Except ε (σ × β)}
    (hgood : ∀ x ∈ xs, ∀ ⦃s s' y⦄, Good s → f s x = .ok (s', y) → Good s')
    (h : ∀ x ∈ xs, Settles out Good (fun s => f s x) fun s => g s x) :
    Settles out Good (StatePass.mapAccumM f xs) (StatePass.mapAccumM g xs) := by
  induction xs with
  | nil => exact fun s _ => ⟨.ok _, rfl⟩
  | cons x xs ih =>
    intro s hs
    rw [StatePass.mapAccumM, StatePass.mapAccumM]
    apply (h x List.mem_cons_self).bind hs
    rintro ⟨t, y⟩ hx
    have ht := hgood x List.mem_cons_self hs hx
    have htail := ih (fun z hz => hgood z (List.mem_cons_of_mem x hz))
      fun z hz => h z (List.mem_cons_of_mem x hz)
    apply htail.bind ht
    exact fun r _ => ⟨.ok _, rfl⟩

end StatePass
