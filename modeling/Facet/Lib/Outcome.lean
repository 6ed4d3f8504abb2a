import Facet.Lib.ExceptList

/-!
# Outcomes that meet specifications

A fallible computation meets a specification when its result does, or when its error is one that
the specification accounts for. A list of computations meets a list of specifications one by one.
-/

namespace ExceptList

universe u

/-- The result is as described, or the error is. -/
def Outcome {ε α : Type*} (ok : α → Prop) (err : ε → Prop) : Except ε α → Prop
  | .ok x => ok x
  | .error e => err e

theorem Outcome.mono {ε α : Type*} {ok ok' : α → Prop} {err err' : ε → Prop} {result : Except ε α}
    (h : Outcome ok err result) (hok : ∀ x, ok x → ok' x) (herr : ∀ e, err e → err' e) :
    Outcome ok' err' result := by
  match result, h with
  | .ok x, h => exact hok x h
  | .error e, h => exact herr e h

theorem Outcome.bind {ε : Type*} {α β : Type u} {ok : α → Prop} {ok' : β → Prop} {err err' : ε → Prop}
    {result : Except ε α} {next : α → Except ε β} (h : Outcome ok err result)
    (herr : ∀ e, err e → err' e) (hnext : ∀ x, ok x → Outcome ok' err' (next x)) :
    Outcome ok' err' (result >>= next) := by
  match result, h with
  | .ok x, h => exact hnext x h
  | .error e, h => exact herr e h

variable {ε α β σ τ : Type u} (R : α → σ → Prop) (bad : ε → σ → Prop)

/-- The result meets the specification, or the error is one that it accounts for. -/
abbrev Meets (s : σ) : Except ε α → Prop := Outcome (R · s) (bad · s)

/-- The results meet the specifications one by one, or one of these accounts for the error. -/
abbrev MeetsEach (ss : List σ) : Except ε (List α) → Prop :=
  Outcome (List.Forall₂ R · ss) fun e => ∃ s ∈ ss, bad e s

variable {R bad}

theorem MeetsEach.mapM {f : β → Except ε α} {g : τ → σ} {xs : List β} {ts : List τ}
    (h : List.Forall₂ (fun x t => Meets R bad (g t) (f x)) xs ts) :
    MeetsEach R bad (ts.map g) (xs.mapM f) := by
  induction h with
  | nil => exact List.Forall₂.nil
  | @cons x t xs ts hx _ ih =>
    rw [List.mapM_cons]
    apply Outcome.bind hx
    · exact fun e he => ⟨g t, List.mem_cons_self, he⟩
    · intro y hy
      apply Outcome.bind ih
      · rintro e ⟨s, hs, he⟩
        exact ⟨s, List.mem_cons_of_mem _ hs, he⟩
      · exact fun ys hys => List.Forall₂.cons hy hys

theorem MeetsEach.flatMapM {f : β → Except ε (List α)} {g : τ → List σ} {xs : List β}
    {ts : List τ} (h : List.Forall₂ (fun x t => MeetsEach R bad (g t) (f x)) xs ts) :
    MeetsEach R bad (ts.flatMap g) (xs.mapM f >>= fun yss => pure yss.flatten) := by
  induction h with
  | nil => exact List.Forall₂.nil
  | @cons x t xs ts hx _ ih =>
    rw [List.mapM_cons, List.flatMap_cons]
    match hfx : f x, hx with
    | .error e, ⟨s, hs, he⟩ => exact ⟨s, List.mem_append_left _ hs, he⟩
    | .ok ys, hys =>
      match hfxs : xs.mapM f, ih with
      | .error e, ⟨s, hs, he⟩ => exact ⟨s, List.mem_append_right _ hs, he⟩
      | .ok yss, hyss => exact List.rel_append hys hyss

end ExceptList
