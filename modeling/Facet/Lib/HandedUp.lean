import Mathlib.Data.List.Basic

/-!
# Cells that hand their contents up

Cells are taken one after another. What is taken is handed to one other cell at most, which makes
something of it. Where no cell is taken before those that hand something to it, a cell that is taken
has received all there is for it, in the order of the turns.
-/

namespace HandedUp

variable {κ α β : Type*} {ε : Type}

/-- One turn: the cell, what it held, and what is handed on. -/
structure Turn (κ α β : Type*) where
  key : κ
  taken : α
  handed : β

variable (parent : κ → Option κ) (receive : α → Turn κ α β → Except ε α)

/-- What the turn makes of the contents of another cell. -/
def Updates (turn : Turn κ α β) (key : κ) (before after : α) : Prop :=
  (parent turn.key = some key → receive before turn = .ok after) ∧
    (parent turn.key ≠ some key → after = before)

/-- One turn, from one assignment of contents to the next. -/
structure Step (cells : κ → Option α) (turn : Turn κ α β) (cells' : κ → Option α) : Prop where
  taken : cells turn.key = some turn.taken
  other : ∀ key before, key ≠ turn.key → cells key = some before →
    ∃ after, cells' key = some after ∧ Updates parent receive turn key before after

inductive Run : (κ → Option α) → List (Turn κ α β) → (κ → Option α) → Prop
  | nil (cells : κ → Option α) : Run cells [] cells
  | cons {cells cells' cells'' : κ → Option α} {turn : Turn κ α β} {turns : List (Turn κ α β)}
      (step : Step parent receive cells turn cells') (rest : Run cells' turns cells'') :
      Run cells (turn :: turns) cells''

variable [DecidableEq κ]

/-- The turns whose cells hand something to the given one. -/
def childrenOf (turns : List (Turn κ α β)) (key : κ) : List (Turn κ α β) :=
  turns.filter fun turn => parent turn.key = some key

/-- What a cell makes of a row of turns, one after another. -/
def receiveAll (contents : α) (turns : List (Turn κ α β)) : Except ε α :=
  turns.foldlM receive contents

variable {parent receive} {cells cells' : κ → Option α} {turn : Turn κ α β}
  {turns : List (Turn κ α β)} {key : κ} {before after : α}

theorem receiveAll_childrenOf_cons (h : Updates parent receive turn key before after) :
    receiveAll receive before (childrenOf parent (turn :: turns) key) =
      receiveAll receive after (childrenOf parent turns key) := by
  unfold receiveAll childrenOf
  by_cases hparent : parent turn.key = some key
  · rw [List.filter_cons_of_pos (by simpa using hparent), List.foldlM_cons, h.1 hparent]
    rfl
  · rw [List.filter_cons_of_neg (by simpa using hparent), h.2 hparent]

namespace Run

/-- A cell that is never taken has in the end what it makes of all that is handed to it. -/
theorem untaken (h : Run parent receive cells turns cells')
    (hkey : ∀ turn ∈ turns, turn.key ≠ key) (hcell : cells key = some before) :
    ∃ after, cells' key = some after ∧
      receiveAll receive before (childrenOf parent turns key) = .ok after := by
  induction h generalizing before with
  | nil cells => exact ⟨before, hcell, rfl⟩
  | cons step rest ih =>
    obtain ⟨middle, hmiddle, hupdates⟩ :=
      step.other key before (hkey _ List.mem_cons_self).symm hcell
    obtain ⟨after, hafter, hall⟩ :=
      ih (fun turn hturn => hkey turn (List.mem_cons_of_mem _ hturn)) hmiddle
    exact ⟨after, hafter, (receiveAll_childrenOf_cons hupdates).trans hall⟩

/-- A cell that is taken holds what it has made of all that is ever handed to it. -/
theorem taken_eq (h : Run parent receive cells turns cells')
    (hnodup : (turns.map (·.key)).Nodup)
    (horder : turns.Pairwise fun first later => parent later.key ≠ some first.key)
    (hself : ∀ turn ∈ turns, parent turn.key ≠ some turn.key)
    (hturn : turn ∈ turns) (hcell : cells turn.key = some before) :
    receiveAll receive before (childrenOf parent turns turn.key) = .ok turn.taken := by
  induction h generalizing before with
  | nil cells => cases hturn
  | @cons cells cells' _ first turns step rest ih =>
    obtain ⟨hnew, hnodup⟩ := List.nodup_cons.mp hnodup
    obtain ⟨hfirst, horder⟩ := List.pairwise_cons.mp horder
    rcases List.mem_cons.mp hturn with rfl | hturn
    · -- nothing is handed to the cell that is taken now or afterwards
      have hnone : childrenOf parent (turn :: turns) turn.key = [] := by
        unfold childrenOf
        rw [List.filter_eq_nil_iff]
        intro other hother
        rcases List.mem_cons.mp hother with rfl | hother
        · simpa using hself _ List.mem_cons_self
        · simpa using hfirst other hother
      rw [hnone, ← Option.some_inj.mp (hcell.symm.trans step.taken)]
      rfl
    · have hne : turn.key ≠ first.key := by
        intro heq
        exact hnew (List.mem_map.mpr ⟨turn, hturn, heq⟩)
      obtain ⟨middle, hmiddle, hupdates⟩ := step.other turn.key before hne hcell
      rw [receiveAll_childrenOf_cons hupdates]
      exact ih hnodup horder (fun turn h => hself turn (List.mem_cons_of_mem _ h)) hturn hmiddle

end Run

end HandedUp
