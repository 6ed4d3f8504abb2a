import Facet.Path.Replay
import Facet.Lib.LabelledGraph

/-!
# The trails a walk enters

Every trail handed to a visitor descends from the root; a program with finitely many
shapes is walked completely; and a visitor that recurses up to a given depth is handed a
trail into every child of every shape it can reach.
-/

namespace Facet.Path

variable {ι : Type}

section Reach

variable (S : Shapes ι)

def edges (a : ι) : List (Unit × ι) := (children (S a)).map fun c => ((), c.shape)

/-- The shapes that the walker's descents lead to, however often it would enter them. -/
def Reachable (root s : ι) : Prop := LabelledGraph.Walk (edges S) root () s

variable {S}

theorem mem_edges {a b : ι} : ((), b) ∈ edges S a ↔ ∃ c ∈ children (S a), c.shape = b := by
  simp [edges]

theorem Reachable.refl (a : ι) : Reachable S a a := LabelledGraph.Walk.nil a

theorem Reachable.head {a s : ι} {c : Child ι} (hc : c ∈ children (S a))
    (h : Reachable S c.shape s) : Reachable S a s :=
  LabelledGraph.Walk.cons (mem_edges.mpr ⟨c, hc, rfl⟩) h

theorem Descends.reachable {a : ι} {trail : Trail ι} (h : Descends S a trail) :
    Reachable S a (Trail.target a trail) := by
  induction trail generalizing a with
  | nil => exact Reachable.refl a
  | cons c cs ih => exact Reachable.head h.1 (ih h.2)

/-- A reachable shape is reached without meeting any shape twice. -/
theorem Reachable.exists_chain {root s : ι} (h : Reachable S root s) :
    ∃ k, LabelledGraph.Chain (edges S) ∅ root () s k := by
  apply LabelledGraph.Walk.exists_chain (P := fun _ => True) h trivial
  rintro ⟨-, -, -, m, -, -, -, hm, -⟩
  exact hm rfl

end Reach

section Children

variable {β : Type} {walk : Child ι → β → Outcome × β}

theorem walkChildren_keeps {P : β → Prop} {cs : List (Child ι)} {b : β}
    (h : ∀ c ∈ cs, ∀ b, P b → P (walk c b).2) (hb : P b) : P (walkChildren walk cs b).2 := by
  induction cs generalizing b with
  | nil => exact hb
  | cons c cs ih =>
    have hc := h c (List.mem_cons_self ..) b hb
    rw [walkChildren]
    split
    · rename_i b' heq
      rw [heq] at hc
      exact ih (fun c' hc' => h c' (List.mem_cons_of_mem _ hc')) hc
    · exact hc

theorem walkChildren_outcome {P : Outcome → Prop} {cs : List (Child ι)} {b : β}
    (h : ∀ c ∈ cs, ∀ b, P (walk c b).1) (hc : P .completed) : P (walkChildren walk cs b).1 := by
  induction cs generalizing b with
  | nil => exact hc
  | cons c cs ih =>
    rw [walkChildren]
    split
    · exact ih fun c' hc' => h c' (List.mem_cons_of_mem _ hc')
    · exact h c (List.mem_cons_self ..) b

/-- When no child ends the walk, what one child brings about holds at the end. -/
theorem walkChildren_reaches {P : β → Prop} {cs : List (Child ι)} {b : β} {c : Child ι}
    (hc : c ∈ cs) (hdone : ∀ c ∈ cs, ∀ b, (walk c b).1 = .completed)
    (hkeep : ∀ c ∈ cs, ∀ b, P b → P (walk c b).2) (h : ∀ b, P (walk c b).2) :
    P (walkChildren walk cs b).2 := by
  induction cs generalizing b with
  | nil => simp at hc
  | cons d ds ih =>
    have hd := hdone d (List.mem_cons_self ..) b
    have hkeep' : ∀ c ∈ ds, ∀ b, P b → P (walk c b).2 :=
      fun c' hc' => hkeep c' (List.mem_cons_of_mem _ hc')
    have hrest : walkChildren walk (d :: ds) b = walkChildren walk ds (walk d b).2 := by
      rw [walkChildren]
      split
      · rename_i b' heq
        rw [heq]
      · rename_i hne
        exact (hne (walk d b).2 (Prod.ext hd rfl)).elim
    rw [hrest]
    rcases List.mem_cons.mp hc with rfl | hmem
    · exact walkChildren_keeps hkeep' (h b)
    · exact ih hmem (fun c' hc' => hdone c' (List.mem_cons_of_mem _ hc')) hkeep'

end Children

section Runs

variable {σ : Type} [DecidableEq ι] {S : Shapes ι} {visitor : Visitor ι σ}

/-- The run right after a shape was entered. -/
def Visitor.entering (visitor : Visitor ι σ) (shape : ι) (trail : Trail ι) (run : Visits ι σ) :
    Visits ι σ :=
  ⟨(visitor.enter trail.path shape run.state).2, run.entered ++ [trail]⟩

/-- What entering a shape can lead to: nothing more is entered, or the children are walked
because the shape is not its own ancestor. -/
theorem walkRecursive_cases (fuel : ℕ) (shape : ι) (trail : Trail ι) (ancestors : List ι)
    (run : Visits ι σ) :
    ((walkRecursive S visitor (fuel + 1) shape trail ancestors run).2.entered
        = run.entered ++ [trail] ∧
      (walkRecursive S visitor (fuel + 1) shape trail ancestors run).1
        = (if (visitor.enter trail.path shape run.state).1 = .stop then .stopped
          else .completed) ∧
      ((visitor.enter trail.path shape run.state).1 = .recurse → shape ∈ ancestors)) ∨
    (shape ∉ ancestors ∧ (visitor.enter trail.path shape run.state).1 = .recurse ∧
      ∃ walked, walked = walkChildren
          (fun c => walkRecursive S visitor fuel c.shape (trail ++ [c]) (shape :: ancestors))
          (children (S shape)) (visitor.entering shape trail run) ∧
        (walkRecursive S visitor (fuel + 1) shape trail ancestors run).1 = walked.1 ∧
        (walkRecursive S visitor (fuel + 1) shape trail ancestors run).2.entered
          = walked.2.entered) := by
  rw [walkRecursive]
  cases hentry : (visitor.enter trail.path shape run.state).1 with
  | stop => simp
  | skipChildren => simp [Visitor.left]
  | recurse =>
    by_cases hmem : shape ∈ ancestors
    · simp [hmem, Visitor.left]
    · refine .inr ⟨hmem, rfl, _, rfl, ?_⟩
      simp only [hmem, if_false, Visitor.entering]
      split
      · rename_i walked heq
        simp [heq, Visitor.left]
      · exact ⟨rfl, rfl⟩

theorem mem_entered_of_mem {fuel : ℕ} {shape : ι} {trail t : Trail ι} {ancestors : List ι}
    {run : Visits ι σ} (h : t ∈ run.entered) :
    t ∈ (walkRecursive S visitor fuel shape trail ancestors run).2.entered := by
  induction fuel generalizing shape trail ancestors run with
  | zero => exact h
  | succ fuel ih =>
    have happ : t ∈ run.entered ++ [trail] := List.mem_append_left _ h
    rcases walkRecursive_cases fuel shape trail ancestors run with
      ⟨hentered, -⟩ | ⟨-, -, walked, rfl, -, hentered⟩
    · rwa [hentered]
    · rw [hentered]
      exact walkChildren_keeps (P := fun r : Visits ι σ => t ∈ r.entered) (fun c _ b hb => ih hb) happ

theorem self_mem_entered {fuel : ℕ} {shape : ι} {trail : Trail ι} {ancestors : List ι}
    {run : Visits ι σ} (hfuel : 0 < fuel) :
    trail ∈ (walkRecursive S visitor fuel shape trail ancestors run).2.entered := by
  obtain ⟨fuel, rfl⟩ := Nat.exists_eq_add_of_lt hfuel
  have happ : trail ∈ run.entered ++ [trail] := by simp
  rcases walkRecursive_cases (0 + fuel) shape trail ancestors run with
    ⟨hentered, -⟩ | ⟨-, -, walked, rfl, -, hentered⟩
  · rwa [hentered]
  · rw [hentered]
    exact walkChildren_keeps (P := fun r : Visits ι σ => trail ∈ r.entered)
      (fun c _ b hb => mem_entered_of_mem hb) happ

theorem walkRecursive_descends {root : ι} {fuel : ℕ} {trail : Trail ι} {ancestors : List ι}
    {run : Visits ι σ} (htrail : Descends S root trail)
    (hrun : ∀ t ∈ run.entered, Descends S root t) :
    ∀ t ∈ (walkRecursive S visitor fuel (Trail.target root trail) trail ancestors run).2.entered,
      Descends S root t := by
  induction fuel generalizing trail ancestors run with
  | zero => exact hrun
  | succ fuel ih =>
    have happ : ∀ t ∈ run.entered ++ [trail], Descends S root t := by
      intro t ht
      rcases List.mem_append.mp ht with h | h
      · exact hrun t h
      · rwa [List.mem_singleton.mp h]
    rcases walkRecursive_cases fuel (Trail.target root trail) trail ancestors run with
      ⟨hentered, -⟩ | ⟨-, -, walked, rfl, -, hentered⟩
    · rwa [hentered]
    · rw [hentered]
      refine walkChildren_keeps (P := fun r : Visits ι σ => ∀ t ∈ r.entered, Descends S root t) ?_ happ
      intro c hc b hb
      have htarget : Trail.target root (trail ++ [c]) = c.shape := Trail.target_append ..
      rw [← htarget]
      exact ih (htrail.append ⟨hc, trivial⟩) hb

/-- Every trail handed to a visitor descends from the root. -/
theorem walkShape_descends {fuel : ℕ} {root : ι} {state : σ} {trail : Trail ι}
    (h : trail ∈ (walkShape S visitor fuel root state).2.entered) : Descends S root trail := by
  have hroot : Descends S root [] := trivial
  exact walkRecursive_descends hroot (by simp) trail h

theorem walkRecursive_outcome [Fintype ι] {fuel : ℕ} {shape : ι} {trail : Trail ι}
    {ancestors : List ι} {run : Visits ι σ} (hnodup : ancestors.Nodup)
    (hfuel : Fintype.card ι < ancestors.length + fuel) :
    (walkRecursive S visitor fuel shape trail ancestors run).1 ≠ .outOfFuel := by
  induction fuel generalizing shape trail ancestors run with
  | zero =>
    have := hnodup.length_le_card
    omega
  | succ fuel ih =>
    rcases walkRecursive_cases fuel shape trail ancestors run with
      ⟨-, houtcome, -⟩ | ⟨hmem, hrecurse, walked, rfl, houtcome, -⟩
    · rw [houtcome]
      split <;> simp
    · rw [houtcome]
      apply walkChildren_outcome (P := (· ≠ .outOfFuel))
      · intro c _ b
        apply ih (List.nodup_cons.mpr ⟨hmem, hnodup⟩)
        simp only [List.length_cons]
        omega
      · simp

/-- A program of finitely many shapes is walked to the end: fuel for each of them and one
more is enough. -/
theorem walkShape_outcome [Fintype ι] (fuel : ℕ) (root : ι) (state : σ)
    (h : Fintype.card ι < fuel) : (walkShape S visitor fuel root state).1 ≠ .outOfFuel :=
  walkRecursive_outcome List.nodup_nil (by simpa using h)

end Runs

section Depth

variable {S : Shapes ι}

def depthVisitor (n : ℕ) : Visitor ι Unit where
  enter path _ _ := (if path.length < n then .recurse else .skipChildren, ())
  leave _ _ s := s

theorem Child.length_steps (c : Child ι) : 1 ≤ c.steps.length ∧ c.steps.length ≤ 2 := by
  cases hv : c.variant <;> simp [Child.steps, hv]

theorem Trail.length_path_concat (trail : Trail ι) (c : Child ι) :
    (Trail.path (trail ++ [c])).length = (Trail.path trail).length + c.steps.length := by
  simp [Trail.path]

theorem depthVisitor_enter (n : ℕ) (path : List PathStep) (shape : ι) (state : Unit) :
    ((depthVisitor n).enter path shape state).1
      = if path.length < n then .recurse else .skipChildren := rfl

variable [DecidableEq ι]

/-- Each descent lengthens the path, so the visitor stops descending in time. -/
theorem depthVisitor_completed {n fuel : ℕ} {shape : ι} {trail : Trail ι} {ancestors : List ι}
    {run : Visits ι Unit} (hlen : (Trail.path trail).length ≤ n + 1)
    (hfuel : n + 1 < (Trail.path trail).length + fuel) :
    (walkRecursive S (depthVisitor n) fuel shape trail ancestors run).1 = .completed := by
  induction fuel generalizing shape trail ancestors run with
  | zero => omega
  | succ fuel ih =>
    rcases walkRecursive_cases fuel shape trail ancestors run with
      ⟨-, houtcome, -⟩ | ⟨-, hrecurse, walked, rfl, houtcome, -⟩
    · rw [houtcome, depthVisitor_enter]
      split_ifs <;> simp_all
    · have hdeep : (Trail.path trail).length < n := by
        rw [depthVisitor_enter] at hrecurse
        by_contra hshallow
        simp [hshallow] at hrecurse
      rw [houtcome]
      apply walkChildren_outcome (P := (· = .completed)) _ rfl
      intro c _ b
      have hc := c.length_steps
      have hconcat := Trail.length_path_concat trail c
      apply ih <;> omega

/-- What is entered below a child is entered below a shape walked for the first time. -/
theorem depthVisitor_child {n fuel : ℕ} {shape : ι} {trail t : Trail ι} {ancestors : List ι}
    {run : Visits ι Unit} {c : Child ι} (hdeep : (Trail.path trail).length < n)
    (hfuel : n + 1 < (Trail.path trail).length + (fuel + 1)) (hnew : shape ∉ ancestors)
    (hc : c ∈ children (S shape))
    (ht : ∀ run, t ∈ (walkRecursive S (depthVisitor n) fuel c.shape (trail ++ [c])
      (shape :: ancestors) run).2.entered) :
    t ∈ (walkRecursive S (depthVisitor n) (fuel + 1) shape trail ancestors run).2.entered := by
  have hrecurse : ((depthVisitor n).enter (Trail.path trail) shape run.state).1 = .recurse := by
    rw [depthVisitor_enter, if_pos hdeep]
  rcases walkRecursive_cases fuel shape trail ancestors run with
    ⟨-, -, hcycle⟩ | ⟨-, -, walked, rfl, -, hentered⟩
  · exact absurd (hcycle hrecurse) hnew
  · rw [hentered]
    apply walkChildren_reaches (P := fun r : Visits ι Unit => t ∈ r.entered) hc
    · intro d _ b
      have hd := d.length_steps
      have hconcat := Trail.length_path_concat trail d
      apply depthVisitor_completed <;> omega
    · intro d _ b hb
      exact mem_entered_of_mem hb
    · exact ht

/-- The visitor is handed a trail into every child of the shape at the end of a chain. -/
theorem depthVisitor_enters {A : Set ι} {a s : ι} {u : Unit} {k : ℕ}
    (h : LabelledGraph.Chain (edges S) A a u s k) :
    ∃ ext, Descends S a ext ∧ Trail.target a ext = s ∧ ∀ c ∈ children (S s),
      ∀ (n fuel : ℕ) (trail : Trail ι) (ancestors : List ι) (run : Visits ι Unit),
        (∀ x ∈ ancestors, x ∈ A) → (Trail.path trail).length + 2 * k ≤ n →
        n + 1 < (Trail.path trail).length + fuel →
        trail ++ ext ++ [c] ∈
          (walkRecursive S (depthVisitor n) fuel a trail ancestors run).2.entered := by
  induction h with
  | nil hi =>
    refine ⟨[], trivial, rfl, ?_⟩
    intro c hc n fuel trail ancestors run hanc hlen hfuel
    obtain ⟨fuel, rfl⟩ : ∃ m, fuel = m + 1 := ⟨fuel - 1, by omega⟩
    rw [List.append_nil]
    apply depthVisitor_child (by omega) hfuel (fun hmem => hi (hanc _ hmem)) hc
    intro run
    exact self_mem_entered (by omega)
  | @cons A i j s m p k hi hedge _ ih =>
    obtain ⟨ext, hext, htarget, hentered⟩ := ih
    obtain ⟨d, hd, rfl⟩ := mem_edges.mp hedge
    refine ⟨d :: ext, ⟨hd, hext⟩, htarget, ?_⟩
    intro c hc n fuel trail ancestors run hanc hlen hfuel
    obtain ⟨fuel, rfl⟩ : ∃ m, fuel = m + 1 := ⟨fuel - 1, by omega⟩
    have hsteps := d.length_steps
    have hconcat := Trail.length_path_concat trail d
    apply depthVisitor_child (by omega) hfuel (fun hmem => hi (hanc _ hmem)) hd
    intro run
    have hmem := hentered c hc n fuel (trail ++ [d]) (i :: ancestors) run
    rw [List.append_cons trail d ext]
    apply hmem
    · intro x hx
      rcases List.mem_cons.mp hx with rfl | hx
      · exact Set.mem_insert ..
      · exact Set.mem_insert_of_mem _ (hanc x hx)
    · omega
    · omega

theorem Reachable.entered {root s : ι} (h : Reachable S root s) :
    ∃ ext, Descends S root ext ∧ Trail.target root ext = s ∧ ∀ c ∈ children (S s),
      ∃ n fuel, ext ++ [c] ∈ (walkShape S (depthVisitor n) fuel root ()).2.entered := by
  obtain ⟨k, hk⟩ := h.exists_chain
  obtain ⟨ext, hext, htarget, hentered⟩ := depthVisitor_enters hk
  refine ⟨ext, hext, htarget, fun c hc => ⟨2 * k, 2 * k + 2, ?_⟩⟩
  apply hentered c hc (2 * k) (2 * k + 2) [] [] ⟨(), []⟩
  · simp
  · simp [Trail.path]
  · simp [Trail.path]

end Depth

end Facet.Path
