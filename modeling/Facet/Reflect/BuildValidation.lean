import Facet.Reflect.Validation

/-!
# Building a validated value

`build` and `finish_in_place` hand a value out after the invariant walk accepted it. The
walk is complete as long as its queries are: a query misses invariants exactly when the
memo, filled by earlier queries, cuts every way to a shape that declares some.
-/

namespace Facet.Reflect

open SubtreeCache

variable {ι ν : Type} [DecidableEq ι] [Fintype ι] {shapes : Shapes ι}

section Build

variable [DecidableEq ν] [Fintype ν] (heap : Heap shapes ν)

inductive ReflectErrorKind (ι : Type)
  | invariantViolation (invariant : String)
  | userInvariantFailed (message : String) (shape : ι)
  | unsized (shape : ι) (operation : String)
  /-- Filling in defaults or checking for missing fields failed. -/
  | incomplete

/-- What `build` and `finish_in_place` have in common: `filled` is the outcome of filling
in defaults and requiring every field, after which the root value is initialised. -/
def validated (caller : String) (frames : ℕ)
    (filled : Except (ReflectErrorKind ι) Unit) (root : ν) (c : SubtreeCache shapes) :
    Except (ReflectErrorKind ι) Unit :=
  if frames ≠ 1 then
    .error (.invariantViolation
      ("Partial::" ++ caller ++
        "() expects a single frame — call end() until that's the case"))
  else
    filled >>= fun _ =>
      match validateInvariants heap root c with
      | .ok _ => .ok ()
      | .error (.failed shape message) => .error (.userInvariantFailed message shape)
      | .error .unfinished => .error .incomplete

def build (frames : ℕ) (filled : Except (ReflectErrorKind ι) Unit) (sized : Bool)
    (root : ν) (c : SubtreeCache shapes) : Except (ReflectErrorKind ι) Unit :=
  validated heap "build" frames filled root c >>= fun _ =>
    if sized then .ok ()
    else .error (.unsized (heap.shapeOf root) "build (final check for sized layout)")

def finishInPlace (frames : ℕ) (filled : Except (ReflectErrorKind ι) Unit)
    (root : ν) (c : SubtreeCache shapes) : Except (ReflectErrorKind ι) Unit :=
  validated heap "finish_in_place" frames filled root c

variable {heap}

theorem validateInvariants_of_validated {caller : String} {frames : ℕ}
    {filled : Except (ReflectErrorKind ι) Unit} {root : ν} {c : SubtreeCache shapes}
    (hok : validated heap caller frames filled root c = .ok ()) :
    ∃ w, validateInvariants heap root c = .ok w := by
  unfold validated at hok
  split_ifs at hok with hframes
  cases filled with
  | error e => simp [bind, Except.bind] at hok
  | ok =>
    cases hwalk : validateInvariants heap root c with
    | ok w => exact ⟨w, rfl⟩
    | error stop =>
      rw [hwalk] at hok
      cases stop <;> simp [bind, Except.bind] at hok

theorem validated_of_build {frames : ℕ} {filled : Except (ReflectErrorKind ι) Unit} {sized : Bool}
    {root : ν} {c : SubtreeCache shapes} (hok : build heap frames filled sized root c = .ok ()) :
    validated heap "build" frames filled root c = .ok () := by
  unfold build at hok
  cases h : validated heap "build" frames filled root c with
  | ok => rfl
  | error e => simp [h, bind, Except.bind] at hok

end Build

/-- After any history, a query is right exactly when the memo it meets leaves a way to the
invariants open; and a value is built only with all invariants satisfied if every query of
its validation was of that kind. -/
theorem invariantChecking_complete_iff (shapes : Shapes ι) (history : List (Event ι)) :
    (∀ s, ((shapeSubtreeHasInvariants shapes s (afterAll shapes history).toSubtreeState).1 = true ↔
        DeclaresBelow shapes s) ↔
      Query.Answerable shapes ⟨s, (afterAll shapes history).memo⟩) ∧
    ∀ {ν : Type} [DecidableEq ν] [Fintype ν] (heap : Heap shapes ν) (root : ν) (frames : ℕ)
      (filled : Except (ReflectErrorKind ι) Unit) (sized : Bool),
      (∀ q ∈ queries heap root (afterAll shapes history), q.Answerable shapes) →
      build heap frames filled sized root (afterAll shapes history) = .ok () ∨
        finishInPlace heap frames filled root (afterAll shapes history) = .ok () →
      ∀ v, heap.Nested root v → heap.Satisfied v := by
  constructor
  · intro s
    set c := afterAll shapes history
    have hanswer := c.query_eq_true_iff s
    have hsound : OpenIn shapes c.memo s → DeclaresBelow shapes s :=
      OpenIn.declaresBelow c.sound
    change ((c.query s).1 = true ↔ _) ↔ (_ → _)
    rw [hanswer]
    exact ⟨fun h => h.mpr, fun h => ⟨hsound, h⟩⟩
  · intro ν _ _ heap root frames filled sized hqueries hbuilt v hv
    have hvalidated : ∃ w, validateInvariants heap root (afterAll shapes history) = .ok w := by
      rcases hbuilt with hbuilt | hbuilt
      · exact validateInvariants_of_validated (validated_of_build hbuilt)
      · exact validateInvariants_of_validated hbuilt
    obtain ⟨w, hw⟩ := hvalidated
    refine satisfied_of_validateInvariants hw (fun q hq => hqueries q ?_) hv
    rw [queries, hw]
    exact hq

/-- The types of `struct A { bs: Vec<B>, c: C }` and `struct B { a: Vec<A> }`. -/
inductive BackType
  | a
  | vecA
  | b
  | vecB
  | c
  deriving DecidableEq

instance : Fintype BackType where
  elems := {.a, .vecA, .b, .vecB, .c}
  complete t := by cases t <;> decide

/-- Only `C` declares invariants. -/
def backShapes : Shapes BackType
  | .a =>
    { ty := .user (.struct ⟨.struct, [{ name := "bs", shape := .vecB }, { name := "c", shape := .c }]⟩)
      «def» := .undefined }
  | .vecA => { ty := .user .opaqueTy, «def» := .list .a }
  | .b => { ty := .user (.struct ⟨.struct, [{ name := "a", shape := .vecA }]⟩), «def» := .undefined }
  | .vecB => { ty := .user .opaqueTy, «def» := .list .b }
  | .c => { ty := .user (.struct ⟨.struct, []⟩), «def» := .undefined, hasInvariants := true }

/-- `A { bs: vec![B { a: vec![A { bs: vec![], c: bad }] }], c: good }`, from the root on. -/
def backHeap : Heap backShapes (Fin 8) where
  shapeOf := ![.a, .vecB, .b, .vecA, .a, .vecB, .c, .c]
  content := ![.struct [1, 6], .listLike [2], .struct [3], .listLike [4], .struct [5, 7],
    .listLike [], .struct [], .struct []]
  callInvariants := ![none, none, none, none, none, none, some (.ok ()), some (.error "bad")]
  typed := by decide
  declared := by decide

theorem backHeap_nested : backHeap.Nested 0 7 := by
  have hpath : List.IsChain backHeap.PartOf [0, 1, 2, 3, 4, 7] := by
    simp [Heap.PartOf]
    decide
  exact List.relationReflTransGen_of_exists_isChain_cons [1, 2, 3, 4, 7] hpath rfl

/-- Once `A` has been asked about, `B` is memoised as free of invariants; and `A` is built
with an invalid `C` inside. -/
theorem backShapes_not_complete :
    (shapeSubtreeHasInvariants backShapes .b
      (afterAll backShapes [.query .a]).toSubtreeState).1 = false ∧
    DeclaresBelow backShapes .b ∧
    build backHeap 1 (.ok ()) true 0 .new = .ok () ∧
    ∃ v, backHeap.Nested 0 v ∧ ¬ backHeap.Satisfied v := by
  refine ⟨by decide, ?_, ?_, 7, backHeap_nested, fun h => h "bad" rfl⟩
  · have hback : Subtree backShapes .b .c := by
      refine .head (b := .vecA) (by decide) (.head (b := .a) (by decide) ?_)
      exact .single (by decide)
    exact ⟨.c, hback, rfl⟩
  · rfl

/-- Building the good `C` alone makes one query, which the empty memo leaves open. -/
theorem invariantChecking_complete_iff_leaf :
    build backHeap 1 (.ok ()) true 6 .new = .ok () ∧
      ∀ v, backHeap.Nested 6 v → backHeap.Satisfied v := by
  have hbuilt : build backHeap 1 (.ok ()) true 6 .new = .ok () := rfl
  refine ⟨hbuilt, (invariantChecking_complete_iff backShapes []).2 backHeap 6 1
    (.ok ()) true (fun q hq => ?_) (.inl hbuilt)⟩
  have hqueries : queries backHeap 6 (afterAll backShapes []) = [⟨.c, fun _ => none⟩] := rfl
  rw [hqueries, List.mem_singleton] at hq
  subst hq
  exact fun _ => .goal rfl rfl

end Facet.Reflect
