import Mathlib.Algebra.Order.Group.Multiset
import Mathlib.Data.List.Basic
import Mathlib.Tactic

/-!
# Trees and places

A finite tree with labelled nodes, its subtrees by their place (the list of child indices
from the root), and putting another subtree at a place. Putting changes the tree at the
place, keeps the labels and the number of children on the way to it, and leaves every
other subtree as it is. The labels of a tree form a multiset, in which putting exchanges
the labels of the two subtrees.
-/

universe u v

inductive PlacedTree (α : Type u) : Type u
  | node (label : α) (children : List (PlacedTree α))

namespace PlacedTree

variable {α : Type u}

def label : PlacedTree α → α
  | node a _ => a

def children : PlacedTree α → List (PlacedTree α)
  | node _ cs => cs

@[simp] theorem label_node (a : α) (cs : List (PlacedTree α)) : (node a cs).label = a := rfl

@[simp] theorem children_node (a : α) (cs : List (PlacedTree α)) : (node a cs).children = cs :=
  rfl

/-- The subtree at a place. -/
def get? : List ℕ → PlacedTree α → Option (PlacedTree α)
  | [], t => some t
  | i :: p, t => t.children[i]?.bind (get? p)

/-- The tree with `x` at a place. -/
def put : List ℕ → PlacedTree α → PlacedTree α → PlacedTree α
  | [], x, _ => x
  | i :: p, x, t => node t.label (t.children.modify i (put p x))

@[simp] theorem get?_nil (t : PlacedTree α) : get? [] t = some t := rfl

@[simp] theorem put_nil (x t : PlacedTree α) : put [] x t = x := rfl

theorem get?_append (p q : List ℕ) (t : PlacedTree α) :
    get? (p ++ q) t = (get? p t).bind (get? q) := by
  induction p generalizing t with
  | nil => rfl
  | cons i p ih =>
    rw [List.cons_append, get?, get?, Option.bind_assoc]
    congr 1
    funext c
    exact ih c

theorem label_put {p : List ℕ} (hp : p ≠ []) (x t : PlacedTree α) : (put p x t).label = t.label := by
  cases p with
  | nil => exact absurd rfl hp
  | cons i p => rfl

theorem length_children_put {p : List ℕ} (hp : p ≠ []) (x t : PlacedTree α) :
    (put p x t).children.length = t.children.length := by
  cases p with
  | nil => exact absurd rfl hp
  | cons i p => simp [put]

theorem get?_put_above (q r : List ℕ) (x t : PlacedTree α) :
    get? q (put (q ++ r) x t) = (get? q t).map (put r x) := by
  induction q generalizing t with
  | nil => rfl
  | cons i q ih =>
    rw [List.cons_append, put, get?, get?, children_node, List.getElem?_modify]
    cases t.children[i]? with
    | none => rfl
    | some c => simpa using ih c

theorem get?_put_self {p : List ℕ} {t s : PlacedTree α} (h : get? p t = some s)
    (x : PlacedTree α) : get? p (put p x t) = some x := by
  have habove := get?_put_above p [] x t
  rw [List.append_nil, h] at habove
  exact habove

theorem get?_put_below {p : List ℕ} {t s : PlacedTree α} (h : get? p t = some s)
    (r : List ℕ) (x : PlacedTree α) : get? (p ++ r) (put p x t) = get? r x := by
  rw [get?_append, get?_put_self h, Option.bind_some]

theorem get?_put_beside {p q : List ℕ} (hpq : ¬ p <+: q) (hqp : ¬ q <+: p)
    (x t : PlacedTree α) : get? q (put p x t) = get? q t := by
  induction p generalizing q t with
  | nil => exact absurd (List.nil_prefix) hpq
  | cons i p ih =>
    cases q with
    | nil => exact absurd (List.nil_prefix) hqp
    | cons j q =>
      rw [put, get?, get?, children_node, List.getElem?_modify]
      by_cases hij : i = j
      · subst hij
        have hpq' : ¬ p <+: q := fun h => hpq (List.cons_prefix_cons.mpr ⟨rfl, h⟩)
        have hqp' : ¬ q <+: p := fun h => hqp (List.cons_prefix_cons.mpr ⟨rfl, h⟩)
        cases t.children[i]? with
        | none => rfl
        | some c => simpa using ih hpq' hqp' c
      · cases t.children[j]? with
        | none => rfl
        | some c => simp [hij]

/-- Anywhere but at the place and below it, the node stays as it is. -/
theorem map_get?_put {β : Type*} (f : α → ℕ → β) {p q : List ℕ} (hpq : ¬ p <+: q)
    (x t : PlacedTree α) :
    (get? q (put p x t)).map (fun s => f s.label s.children.length) =
      (get? q t).map fun s => f s.label s.children.length := by
  by_cases hqp : q <+: p
  · obtain ⟨r, rfl⟩ := hqp
    have hr : r ≠ [] := by
      intro hr
      exact hpq (by rw [hr, List.append_nil])
    rw [get?_put_above, Option.map_map]
    congr 1
    funext s
    rw [Function.comp_apply, label_put hr, length_children_put hr]
  · rw [get?_put_beside hpq hqp]

theorem put_self {p : List ℕ} {t s : PlacedTree α} (h : get? p t = some s) : put p s t = t := by
  induction p generalizing t with
  | nil =>
    obtain rfl : t = s := Option.some.inj h
    rfl
  | cons i p ih =>
    obtain ⟨c, hc, hcs⟩ := Option.bind_eq_some_iff.mp h
    cases t with
    | node a cs =>
      have hsame : cs.modify i (put p s) = cs := by
        apply List.ext_getElem?
        intro j
        rw [List.getElem?_modify]
        by_cases hij : i = j
        · subst hij
          have hcs' : cs[i]? = some c := hc
          simp [hcs', ih hcs]
        · simp [hij]
      rw [put, label_node, children_node, hsame]

/-- The property holds of the tree and of everything in it. -/
def Everywhere (P : PlacedTree α → Prop) (t : PlacedTree α) : Prop :=
  ∀ q s, get? q t = some s → P s

namespace Everywhere

variable {P : PlacedTree α → Prop} {t : PlacedTree α}

theorem self (h : Everywhere P t) : P t := h [] t rfl

theorem get? (h : Everywhere P t) {p : List ℕ} {s : PlacedTree α}
    (hs : PlacedTree.get? p t = some s) : Everywhere P s := by
  intro q r hr
  apply h (p ++ q) r
  rw [get?_append, hs]
  exact hr

theorem child (h : Everywhere P t) {c : PlacedTree α} (hc : c ∈ t.children) : Everywhere P c := by
  obtain ⟨i, hi⟩ := List.mem_iff_getElem?.mp hc
  apply h.get? (p := [i])
  rw [PlacedTree.get?, hi]
  rfl

theorem iff_children : Everywhere P t ↔ P t ∧ ∀ c ∈ t.children, Everywhere P c := by
  constructor
  · exact fun h => ⟨h.self, fun c hc => h.child hc⟩
  · intro ⟨hself, hchildren⟩ q s hs
    cases q with
    | nil =>
      obtain rfl : t = s := Option.some.inj hs
      exact hself
    | cons i q =>
      obtain ⟨c, hc, hcs⟩ := Option.bind_eq_some_iff.mp hs
      exact hchildren c (List.mem_of_getElem? hc) q s hcs

/-- Putting asks for the property again on the way to the place only. -/
theorem put (h : Everywhere P t) {p : List ℕ} {x : PlacedTree α} (hx : Everywhere P x)
    (hway : ∀ q r s, p = q ++ r → r ≠ [] → PlacedTree.get? q t = some s →
      P (PlacedTree.put r x s)) : Everywhere P (PlacedTree.put p x t) := by
  intro q s hs
  by_cases hpq : p <+: q
  · obtain ⟨r, rfl⟩ := hpq
    cases hp : PlacedTree.get? p t with
    | some old =>
      rw [get?_put_below hp] at hs
      exact hx r s hs
    | none =>
      have hself := get?_put_above p [] x t
      rw [List.append_nil, hp] at hself
      rw [get?_append, hself] at hs
      cases hs
  · by_cases hqp : q <+: p
    · obtain ⟨r, rfl⟩ := hqp
      rw [get?_put_above] at hs
      obtain ⟨old, hold, rfl⟩ := Option.map_eq_some_iff.mp hs
      apply hway q r old rfl _ hold
      intro hr
      exact hpq (by rw [hr, List.append_nil])
    · rw [get?_put_beside hpq hqp] at hs
      exact h q s hs

end Everywhere

mutual

def labels : PlacedTree α → Multiset α
  | node a cs => a ::ₘ labelsAll cs

def labelsAll : List (PlacedTree α) → Multiset α
  | [] => 0
  | c :: cs => labels c + labelsAll cs

end

theorem labels_eq (t : PlacedTree α) : t.labels = t.label ::ₘ labelsAll t.children := by
  cases t
  rfl

theorem mem_labelsAll {a : α} {cs : List (PlacedTree α)} :
    a ∈ labelsAll cs ↔ ∃ c ∈ cs, a ∈ labels c := by
  induction cs with
  | nil => simp [labelsAll]
  | cons c cs ih => simp [labelsAll, ih]

/-- What holds everywhere of the label holds of all labels. -/
theorem Everywhere.forall_labels {P : α → Prop} {t : PlacedTree α}
    (h : Everywhere (fun s => P s.label) t) : ∀ a ∈ t.labels, P a := by
  cases t with
  | node a cs =>
    obtain ⟨hself, hchildren⟩ := Everywhere.iff_children.mp h
    intro b hb
    rcases Multiset.mem_cons.mp hb with rfl | hb
    · exact hself
    · obtain ⟨c, hc, hbc⟩ := mem_labelsAll.mp hb
      exact Everywhere.forall_labels (hchildren c hc) b hbc
termination_by sizeOf t
decreasing_by
  subst_vars
  have := List.sizeOf_lt_of_mem hc
  simp_all only [children_node, node.sizeOf_spec]
  omega

@[simp] theorem labelsAll_append (cs ds : List (PlacedTree α)) :
    labelsAll (cs ++ ds) = labelsAll cs + labelsAll ds := by
  induction cs with
  | nil => simp [labelsAll]
  | cons c cs ih => rw [List.cons_append, labelsAll, labelsAll, ih, add_assoc]

theorem labelsAll_modify {cs : List (PlacedTree α)} {i : ℕ} {c : PlacedTree α}
    (h : cs[i]? = some c) (f : PlacedTree α → PlacedTree α) :
    labelsAll (cs.modify i f) + labels c = labelsAll cs + labels (f c) := by
  induction cs generalizing i with
  | nil => cases h
  | cons d cs ih =>
    cases i with
    | zero =>
      obtain rfl : d = c := by simpa using h
      simp only [List.modify_zero_cons, labelsAll]
      abel
    | succ i =>
      have hrest := ih (by simpa using h)
      simp only [List.modify_succ_cons, labelsAll]
      rw [add_assoc, hrest, add_assoc]

theorem labels_put {p : List ℕ} {t s : PlacedTree α} (h : get? p t = some s)
    (x : PlacedTree α) : (put p x t).labels + s.labels = t.labels + x.labels := by
  induction p generalizing t with
  | nil =>
    obtain rfl : t = s := Option.some.inj h
    exact add_comm _ _
  | cons i p ih =>
    obtain ⟨c, hc, hcs⟩ := Option.bind_eq_some_iff.mp h
    have hchild := ih hcs
    have hall := labelsAll_modify hc (put p x)
    rw [put, labels_eq t, labels, Multiset.cons_add, Multiset.cons_add]
    congr 1
    have hsum : labelsAll (t.children.modify i (put p x)) + s.labels + c.labels =
        labelsAll t.children + x.labels + c.labels := by
      calc labelsAll (t.children.modify i (put p x)) + s.labels + c.labels
          = labelsAll (t.children.modify i (put p x)) + c.labels + s.labels := by abel
        _ = labelsAll t.children + ((put p x c).labels + s.labels) := by rw [hall, add_assoc]
        _ = labelsAll t.children + x.labels + c.labels := by rw [hchild]; abel
    exact add_right_cancel hsum

end PlacedTree
