import Facet.Poke.Parts
import Facet.Poke.Preservation

/-!
# Sequences of operations

An owner lends a value out through `Poke`s. A view is on a place of the value; a list-like
also keeps the length it had. Views are made from views, and an operation may be called on
one only while no other view is on the same value or on something inside it, which is what
borrowing asks for. Beside the memory a session keeps the values handed back to the caller
and, for the accounts only, the tokens and the heap buffers that were handed in.
-/

namespace Facet.Poke

variable {ι : Type}

structure Memory (ι : Type) where
  root : Value ι
  dropped : List (Value ι) := []
  freed : ℕ := 0
  /-- The places whose memory was changed, the last one first. -/
  written : List Place := []

/-- A call on the value at a place. -/
def Call.run (c : Call ι) (m : Memory ι) (p : Place) : Checked (Memory ι × Answer ι) :=
  match PlacedTree.get? p m.root with
  | none => .error .outOfBounds
  | some v =>
    match c.check v with
    | .error e =>
      .ok ({ m with
        dropped := argValues c.args ++ m.dropped
        freed := m.freed + (c.args.map Arg.buffers).sum }, .error e)
    | .ok q =>
      match PlacedTree.get? q v with
      | none => .error .outOfBounds
      | some old => do
        let (s, answer) ← c.commit ⟨old, m.dropped, m.freed⟩
        return ({
          root := PlacedTree.put (p ++ q) s.value m.root
          dropped := s.dropped
          freed := s.freed
          written := (p ++ q) :: m.written }, answer)

inductive View
  | poke (place : Place)
  | listLike (place : Place) (len : ℕ)

def View.place : View → Place
  | poke place | listLike place _ => place

structure Session (ι : Type) where
  memory : Memory ι
  views : List View := []
  returned : List (Value ι) := []
  /-- The tokens of the first value and of all arguments. -/
  given : Multiset ℕ
  /-- The heap buffers of all arguments. -/
  lent : ℕ := 0

def Session.start (v : Value ι) : Session ι :=
  { memory := { root := v }, given := v.tokens }

inductive Command (ι : Type)
  /-- `Poke::new`. -/
  | new
  | access (i : ℕ) (a : Access ι)
  | item (i : ℕ) (a : ItemAccess)
  | intoListLike (i : ℕ)
  | close (i : ℕ)
  | op (i : ℕ) (op : PokeOp ι)
  | listLikeOp (i : ℕ) (op : ListLikeOp ι)

namespace Session

variable (s : Session ι)

def withView (reply : Reply ι View) : Session ι × Answer ι :=
  match reply with
  | .ok view => ({ s with views := s.views ++ [view] }, .ok none)
  | .error e => (s, .error e)

/-- After a call: its answer taken, its arguments entered into the accounts. -/
def after (args : List (Arg ι)) (views : List View) (m : Memory ι) (answer : Answer ι) :
    Session ι where
  memory := m
  views := views
  returned := Poke.returned answer ++ s.returned
  given := s.given + tokensAll (argValues args)
  lent := s.lent + (args.map Arg.buffers).sum

end Session

namespace Runtime

variable (R : Runtime ι) [DecidableEq ι]

/-- Without the view there is nothing to call. -/
def step (s : Session ι) : Command ι → Checked (Session ι × Answer ι)
  | .new => .ok (s.withView (.ok (.poke [])))
  | .access i a =>
    match s.views[i]? with
    | some (.poke p) =>
      match PlacedTree.get? p s.memory.root with
      | none => .error .outOfBounds
      | some v => do
        let reply ← R.access v a
        return s.withView (reply.map fun q => .poke (p ++ q))
    | _ => .ok (s, .error .absent)
  | .item i a =>
    match s.views[i]? with
    | some (.listLike p len) =>
      match PlacedTree.get? p s.memory.root with
      | none => .error .outOfBounds
      | some v => .ok (s.withView ((R.itemAccess v len a).map fun q => .poke (p ++ q)))
    | _ => .ok (s, .error .absent)
  | .intoListLike i =>
    match s.views[i]? with
    | some (.poke p) =>
      match PlacedTree.get? p s.memory.root with
      | none => .error .outOfBounds
      | some v =>
        match R.intoListLike v with
        | .ok listDef =>
          .ok ({ s with views := s.views.set i (.listLike p (listLikeLen v listDef)) }, .ok none)
        | .error e => .ok (s, .error e)
    | _ => .ok (s, .error .absent)
  | .close i => .ok ({ s with views := s.views.eraseIdx i }, .ok none)
  | .op i op =>
    match s.views[i]? with
    | some (.poke p) => do
      let (m, answer) ← (R.pokeCall op).run s.memory p
      return (s.after (R.pokeCall op).args s.views m answer, answer)
    | _ => .ok (s, .error .absent)
  | .listLikeOp i op =>
    match s.views[i]? with
    | some (.listLike p len) => do
      let (m, answer) ← (R.listLikeCall len op).run s.memory p
      let views := s.views.set i (.listLike p (op.cachedAfter len answer))
      return (s.after (R.listLikeCall len op).args views m answer, answer)
    | _ => .ok (s, .error .absent)

end Runtime

namespace Session

variable (s : Session ι)

/-- No other view is on the value of a view or on something inside it. -/
def Exclusive (i : ℕ) : Prop :=
  ∀ j view other, s.views[i]? = some view → s.views[j]? = some other → j ≠ i →
    ¬ view.place <+: other.place

end Session

/-- What borrowing and the types of the arguments promise of a command. -/
def Runtime.Allowed (R : Runtime ι) [DecidableEq ι] (s : Session ι) : Command ι → Prop
  | .op i op => s.Exclusive i ∧ ∀ x ∈ (R.pokeCall op).args, R.Sound x.value
  | .listLikeOp i op => s.Exclusive i ∧ ∀ x ∈ (R.listLikeCall 0 op).args, R.Sound x.value
  | _ => True

/-- The sessions on a value whose steps are all allowed and permitted. -/
inductive Reached (R : Runtime ι) [DecidableEq ι] (permits : Session ι → Command ι → Prop)
    (v : Value ι) : Session ι → Prop
  | start : Reached R permits v (.start v)
  | step {s s' : Session ι} {c : Command ι} {answer : Answer ι} (hs : Reached R permits v s)
      (hallowed : R.Allowed s c) (hpermits : permits s c)
      (hstep : R.step s c = .ok (s', answer)) : Reached R permits v s'

end Facet.Poke
