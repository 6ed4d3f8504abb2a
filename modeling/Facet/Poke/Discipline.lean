import Facet.Poke.PlainData

/-!
# Where plain old data is asked for

A session keeps the fields of guarded values to themselves when every call that gets
through is made on a value with no guarded value strictly around it. A call of `Poke::set`
on a field gets through without that.
-/

namespace Facet.Poke

variable {ι : Type}

/-- The call that a command makes on one of the views, and the place of the view. -/
def Session.called (s : Session ι) : Command ι → Option (Place × Op ι)
  | .op i op =>
    match s.views[i]? with
    | some (.poke p) => some (p, .poke op)
    | _ => none
  | .listLikeOp i op =>
    match s.views[i]? with
    | some (.listLike p len) => some (p, .listLike len op)
    | _ => none
  | _ => none

namespace Runtime

variable (R : Runtime ι)

/-- Nothing around the place is guarded. -/
def Open (root : Value ι) (p : Place) : Prop :=
  ∀ (r rest : Place) (x : Value ι), p = r ++ rest → rest ≠ [] →
    PlacedTree.get? r root = some x → ¬ Guarded (R.shapes x.shape)

variable [DecidableEq ι]

/-- The values that a command hands in. -/
def commandArgs : Command ι → List (Arg ι)
  | .op _ op => (R.pokeCall op).args
  | .listLikeOp _ op => (R.listLikeCall 0 op).args
  | _ => []

/-- A call that passes its checks is made where nothing around is guarded. -/
def CalledInTheOpen (s : Session ι) (c : Command ι) : Prop :=
  ∀ p op (v : Value ι), s.called c = some (p, op) →
    PlacedTree.get? p s.memory.root = some v → (∃ q, (R.call op).check v = .ok q) →
      R.Open s.memory.root p

/-- A call for a part does not take the value of an option to lie where it does not. -/
def EnteredInPlace (s : Session ι) : Command ι → Prop
  | .access i a =>
    ∀ (p : Place) (v : Value ι), s.views[i]? = some (.poke p) →
      PlacedTree.get? p s.memory.root = some v → R.accessInPlace v a
  | _ => True

/-- Every `Poke` is on memory that holds a value of its shape; a field of a guarded value
changes only when the value, or one around it, is replaced; and invariants that only guarded
types declare, and that hold of the value and of all that is handed in, hold to the end. -/
def PodDiscipline (permits : Session ι → Command ι → Prop) (v : Value ι) : Prop :=
  (∀ s i a, Reached R permits v s → permits s (.access i a) →
    R.step s (.access i a) ≠ .error .misplaced) ∧
  (∀ s c s' answer, Reached R permits v s → R.Allowed s c → permits s c →
    R.step s c = .ok (s', answer) →
      ∀ (q : Place) (x : Value ι) (i : ℕ), PlacedTree.get? q s.memory.root = some x →
        Guarded (R.shapes x.shape) →
          PlacedTree.get? (q ++ [i]) s'.memory.root ≠ PlacedTree.get? (q ++ [i]) s.memory.root →
            ∃ t, s'.memory.written = t :: s.memory.written ∧ t <+: q) ∧
    ∀ inv, R.Declared inv → PlacedTree.Everywhere inv v →
      ∀ s, Reached R
          (fun s c => permits s c ∧ ∀ y ∈ R.commandArgs c, PlacedTree.Everywhere inv y.value) v s →
        PlacedTree.Everywhere inv s.memory.root

variable {R}

/-- A step leaves the memory or makes the call of its command. -/
theorem step_cases {s s' : Session ι} {c : Command ι} {answer : Answer ι}
    (h : R.step s c = .ok (s', answer)) :
    s'.memory = s.memory ∨ ∃ p op, s.called c = some (p, op) ∧
      (R.call op).run s.memory p = .ok (s'.memory, answer) ∧
        (R.call op).args = R.commandArgs c := by
  cases c with
  | new =>
    obtain ⟨rfl, -⟩ := Prod.mk.inj (Except.ok.inj h)
    exact .inl rfl
  | close i =>
    obtain ⟨rfl, -⟩ := Prod.mk.inj (Except.ok.inj h)
    exact .inl rfl
  | access i a =>
    left
    rw [step] at h
    cases hview : s.views[i]? with
    | none =>
      rw [hview] at h
      obtain ⟨rfl, -⟩ := Prod.mk.inj (Except.ok.inj h)
      rfl
    | some view =>
      rw [hview] at h
      cases view with
      | listLike p len =>
        obtain ⟨rfl, -⟩ := Prod.mk.inj (Except.ok.inj h)
        rfl
      | poke p =>
        dsimp only at h
        cases hv : PlacedTree.get? p s.memory.root with
        | none => simp [hv] at h
        | some v =>
          rw [hv] at h
          obtain ⟨reply, -, h⟩ := ExceptList.exists_of_bind_ok h
          obtain ⟨rfl, -⟩ := Prod.mk.inj (Except.ok.inj h)
          cases reply <;> rfl
  | item i a =>
    left
    rw [step] at h
    cases hview : s.views[i]? with
    | none =>
      rw [hview] at h
      obtain ⟨rfl, -⟩ := Prod.mk.inj (Except.ok.inj h)
      rfl
    | some view =>
      rw [hview] at h
      cases view with
      | poke p =>
        obtain ⟨rfl, -⟩ := Prod.mk.inj (Except.ok.inj h)
        rfl
      | listLike p len =>
        dsimp only at h
        cases hv : PlacedTree.get? p s.memory.root with
        | none => simp [hv] at h
        | some v =>
          rw [hv] at h
          obtain ⟨rfl, -⟩ := Prod.mk.inj (Except.ok.inj h)
          cases R.itemAccess v len a <;> rfl
  | intoListLike i =>
    left
    rw [step] at h
    cases hview : s.views[i]? with
    | none =>
      rw [hview] at h
      obtain ⟨rfl, -⟩ := Prod.mk.inj (Except.ok.inj h)
      rfl
    | some view =>
      rw [hview] at h
      cases view with
      | listLike p len =>
        obtain ⟨rfl, -⟩ := Prod.mk.inj (Except.ok.inj h)
        rfl
      | poke p =>
        dsimp only at h
        cases hv : PlacedTree.get? p s.memory.root with
        | none => simp [hv] at h
        | some v =>
          rw [hv] at h
          dsimp only at h
          cases hinto : R.intoListLike v with
          | error e =>
            rw [hinto] at h
            obtain ⟨rfl, -⟩ := Prod.mk.inj (Except.ok.inj h)
            rfl
          | ok listDef =>
            rw [hinto] at h
            obtain ⟨rfl, -⟩ := Prod.mk.inj (Except.ok.inj h)
            rfl
  | op i op =>
    rw [step] at h
    cases hview : s.views[i]? with
    | none =>
      rw [hview] at h
      obtain ⟨rfl, -⟩ := Prod.mk.inj (Except.ok.inj h)
      exact .inl rfl
    | some view =>
      rw [hview] at h
      cases view with
      | listLike p len =>
        obtain ⟨rfl, -⟩ := Prod.mk.inj (Except.ok.inj h)
        exact .inl rfl
      | poke p =>
        obtain ⟨⟨m, ans⟩, hrun, h⟩ := ExceptList.exists_of_bind_ok h
        obtain ⟨rfl, rfl⟩ := Prod.mk.inj (Except.ok.inj h)
        refine .inr ⟨p, .poke op, ?_, hrun, rfl⟩
        rw [Session.called, hview]
  | listLikeOp i op =>
    rw [step] at h
    cases hview : s.views[i]? with
    | none =>
      rw [hview] at h
      obtain ⟨rfl, -⟩ := Prod.mk.inj (Except.ok.inj h)
      exact .inl rfl
    | some view =>
      rw [hview] at h
      cases view with
      | poke p =>
        obtain ⟨rfl, -⟩ := Prod.mk.inj (Except.ok.inj h)
        exact .inl rfl
      | listLike p len =>
        obtain ⟨⟨m, ans⟩, hrun, h⟩ := ExceptList.exists_of_bind_ok h
        obtain ⟨rfl, rfl⟩ := Prod.mk.inj (Except.ok.inj h)
        refine .inr ⟨p, .listLike len op, ?_, hrun, ?_⟩
        · rw [Session.called, hview]
        · cases op <;> rfl

section Calls

variable {root v : Value ι} {p q : Place} {op : Op ι}

theorem Open.target (hopen : R.Open root p) (hv : PlacedTree.get? p root = some v)
    (hcheck : (R.call op).check v = .ok q) : R.Open root (p ++ q) := by
  have hplace : q = [] ∨ (R.shapes v.shape).isPod = true ∧ ∃ i, q = [i] := by
    cases op with
    | poke op =>
      rcases pokeCheck_place hcheck with hq | ⟨hfield, -⟩
      · exact .inl hq
      · exact .inr hfield
    | listLike len op => exact .inl (listLikeCheck_place hcheck)
  rcases hplace with rfl | ⟨hpod, i, rfl⟩
  · rwa [List.append_nil]
  · intro r rest x hsplit hrest hx
    have hprefix : r <+: p := by
      rcases List.prefix_concat_iff.mp (⟨rest, hsplit.symm⟩ : r <+: p ++ [i]) with hall | hr
      · have hlength : (p ++ [i]).length = r.length + rest.length := by
          rw [hsplit, List.length_append]
        rw [hall] at hlength
        have hpos := List.length_pos_iff.mpr hrest
        omega
      · exact hr
    obtain ⟨rest', rfl⟩ := hprefix
    by_cases hself : rest' = []
    · subst hself
      rw [List.append_nil] at hv
      obtain rfl : v = x := Option.some.inj (hv.symm.trans hx)
      exact not_guarded_of_isPod hpod
    · exact hopen r rest' x rfl hself hx

omit [DecidableEq ι] in
/-- Where a field of a guarded value changes, something at the value or around it was put. -/
theorem Open.prefix_of_changed {t : Place} (hopen : R.Open root t) {y x : Value ι} {i : ℕ}
    (hx : PlacedTree.get? q root = some x) (hguarded : Guarded (R.shapes x.shape))
    (hchanged : PlacedTree.get? (q ++ [i]) (PlacedTree.put t y root) ≠
      PlacedTree.get? (q ++ [i]) root) : t <+: q := by
  by_cases hbelow : t <+: q ++ [i]
  · rcases List.prefix_concat_iff.mp hbelow with rfl | hprefix
    · exact absurd hguarded (hopen q [i] x rfl (by simp) hx)
    · exact hprefix
  · by_cases habove : q ++ [i] <+: t
    · obtain ⟨rest, rfl⟩ := habove
      have hsplit : q ++ [i] ++ rest = q ++ ([i] ++ rest) := List.append_assoc _ _ _
      exact absurd hguarded (hopen q ([i] ++ rest) x hsplit (by simp) hx)
    · exact absurd (PlacedTree.get?_put_beside hbelow habove y root) hchanged

omit [DecidableEq ι] in
/-- What only guarded values are asked survives a put with nothing guarded around. -/
theorem Open.everywhere_put {inv : Value ι → Prop} (hinv : R.Declared inv) {t : Place}
    (hopen : R.Open root t) (hroot : PlacedTree.Everywhere inv root) {old y : Value ι}
    (hold : PlacedTree.get? t root = some old) (hy : PlacedTree.Everywhere inv y) :
    PlacedTree.Everywhere inv (PlacedTree.put t y root) := by
  apply hroot.put hy
  intro r rest x hsplit hrest hx
  have hsame : Value.shape (PlacedTree.put rest y x) = Value.shape x :=
    congrArg Label.shape (PlacedTree.label_put hrest y x)
  apply hinv
  · rw [hsame]
    exact hopen r rest x hsplit hrest hx
  · left
    intro hnone
    have hempty : x.children = [] := by
      apply List.eq_nil_of_length_eq_zero
      rw [← PlacedTree.length_children_put hrest y x, hnone]
      rfl
    rw [hsplit, PlacedTree.get?_append, hx] at hold
    cases rest with
    | nil => exact hrest rfl
    | cons i rest =>
      rw [Option.bind_some, PlacedTree.get?, hempty] at hold
      cases hold

end Calls

section Sessions

variable {s s' : Session ι} {c : Command ι} {answer : Answer ι}

theorem field_kept (hopen : R.CalledInTheOpen s c) (hstep : R.step s c = .ok (s', answer))
    {q : Place} {x : Value ι} {i : ℕ} (hx : PlacedTree.get? q s.memory.root = some x)
    (hguarded : Guarded (R.shapes x.shape))
    (hchanged : PlacedTree.get? (q ++ [i]) s'.memory.root ≠
      PlacedTree.get? (q ++ [i]) s.memory.root) :
    ∃ t, s'.memory.written = t :: s.memory.written ∧ t <+: q := by
  rcases step_cases hstep with hsame | ⟨p, op, hcalled, hrun, -⟩
  · rw [hsame] at hchanged
    exact absurd rfl hchanged
  · obtain ⟨v, hv, hcases⟩ := run_cases hrun
    rcases hcases with ⟨e, -, -, hmemory⟩ | ⟨q', old, hcheck, -, -, hmemory⟩
    · rw [hmemory] at hchanged
      exact absurd rfl hchanged
    · have htarget := (hopen p op v hcalled hv ⟨q', hcheck⟩).target hv hcheck
      rw [hmemory] at hchanged ⊢
      exact ⟨p ++ q', rfl, htarget.prefix_of_changed hx hguarded hchanged⟩

theorem everywhere_step {inv : Value ι → Prop} (hinv : R.Declared inv)
    (hroot : PlacedTree.Everywhere inv s.memory.root) (hopen : R.CalledInTheOpen s c)
    (hargs : ∀ y ∈ R.commandArgs c, PlacedTree.Everywhere inv y.value)
    (hstep : R.step s c = .ok (s', answer)) :
    PlacedTree.Everywhere inv s'.memory.root := by
  rcases step_cases hstep with hsame | ⟨p, op, hcalled, hrun, hsameArgs⟩
  · rwa [hsame]
  · obtain ⟨v, hv, hcases⟩ := run_cases hrun
    rcases hcases with ⟨e, -, -, hmemory⟩ | ⟨q, old, hcheck, hold, -, hmemory⟩
    · rwa [hmemory]
    · have htarget := (hopen p op v hcalled hv ⟨q, hcheck⟩).target hv hcheck
      have holdEverywhere : PlacedTree.Everywhere inv old := (hroot.get? hv).get? hold
      have hplace : PlacedTree.get? (p ++ q) s.memory.root = some old := by
        rw [PlacedTree.get?_append, hv]
        exact hold
      rw [hmemory]
      apply htarget.everywhere_put hinv hroot hplace
      apply (effect_made hcheck hold).everywhere hinv holdEverywhere
      rwa [hsameArgs]

theorem step_access_ne_misplaced {i : ℕ} {a : Access ι}
    (hplace : R.EnteredInPlace s (.access i a)) : R.step s (.access i a) ≠ .error .misplaced := by
  rw [step]
  cases hview : s.views[i]? with
  | none => exact nofun
  | some view =>
    cases view with
    | listLike p len => exact nofun
    | poke p =>
      dsimp only
      cases hv : PlacedTree.get? p s.memory.root with
      | none => exact nofun
      | some v =>
        have haccess := access_ne_misplaced (hplace p v hview hv)
        dsimp only
        cases hreply : R.access v a with
        | error violation =>
          rw [hreply] at haccess
          exact fun h => haccess (congrArg _ (Except.error.inj h))
        | ok reply => exact nofun

theorem podDiscipline_calledInTheOpen (R : Runtime ι) (v : Value ι) :
    R.PodDiscipline (fun s c => R.CalledInTheOpen s c ∧ R.EnteredInPlace s c) v := by
  refine ⟨?_, ?_, ?_⟩
  · intro s i a _ hpermits
    exact step_access_ne_misplaced hpermits.2
  · intro s c s' answer _ _ hpermits hstep q x i hx hguarded hchanged
    exact field_kept hpermits.1 hstep hx hguarded hchanged
  · intro inv hinv hv s hs
    induction hs with
    | start => exact hv
    | step _ _ hpermits hstep ih =>
      exact everywhere_step hinv ih hpermits.1.1 hpermits.2 hstep

end Sessions

end Runtime

inductive RangeType
  | range
  | bound
  deriving DecidableEq

/-- A struct of a lower and an upper bound, not marked, and its fields. -/
def rangeRuntime : Runtime RangeType where
  shapes
    | .range =>
      { ty := .user (.struct ⟨.struct, [
          { name := "lo", shape := .bound }, { name := "hi", shape := .bound }]⟩)
        «def» := .undefined
        hasInvariants := true }
    | .bound => { ty := .primitive .numeric, «def» := .scalar, scalarType := some .u32 }
  tables := {
    listGetMut _ := false
    listPush _ := false
    listPop _ := false
    listSwap _ := false
    listAsMutPtr _ := false
    ndArrayGetMut _ := false
    dynSetBytes _ := false
    dynEndArray _ := false
    dynEndObject _ := false
    dynObjectGetMut _ := false
    representable _ _ := false
    keyEq _ _ _ := false
    someOffset _ := 0 }
  viewsAgree shape := by cases shape <;> exact trivial

def boundValue (n : ℕ) : Value RangeType := .node ⟨.bound, .scalar n, none⟩ []

def rangeValue (lo hi : ℕ) : Value RangeType :=
  .node ⟨.range, .struct, none⟩ [boundValue lo, boundValue hi]

theorem boundValue_sound (n : ℕ) : rangeRuntime.Sound (boundValue n) := by
  apply Runtime.sound_node.mpr
  refine ⟨⟨?_, rfl, trivial⟩, fun c hc => absurd hc List.not_mem_nil⟩
  simp [Value.Initialised, Value.head]

theorem rangeValue_sound (lo hi : ℕ) : rangeRuntime.Sound (rangeValue lo hi) := by
  apply Runtime.sound_node.mpr
  refine ⟨⟨?_, rfl, rfl⟩, ?_⟩
  · simp [Value.Initialised, Value.head]
  · intro c hc
    rcases List.mem_cons.mp hc with rfl | hc
    · exact boundValue_sound lo
    · obtain rfl := List.mem_singleton.mp hc
      exact boundValue_sound hi

/-- The lower bound of a range is set to a value above the upper one. -/
theorem setBound_not_podDiscipline :
    rangeRuntime.Sound (rangeValue 1 2) ∧
      ¬ rangeRuntime.PodDiscipline (fun _ _ => True) (rangeValue 1 2) := by
  refine ⟨rangeValue_sound 1 2, fun h => ?_⟩
  let opened : Session RangeType :=
    { Session.start (rangeValue 1 2) with views := [.poke [], .poke [0]] }
  have hreached : Reached rangeRuntime (fun _ _ => True) (rangeValue 1 2) opened := by
    have hnew : Reached rangeRuntime (fun _ _ => True) (rangeValue 1 2)
        { Session.start (rangeValue 1 2) with views := [.poke []] } :=
      .step (c := .new) .start trivial trivial rfl
    exact .step (c := .access 0 (.field 0)) hnew trivial trivial rfl
  have hallowed : rangeRuntime.Allowed opened (.op 1 (.set (boundValue 5))) := by
    constructor
    · intro j view other hview hother hj
      have hlt := (List.getElem?_eq_some_iff.mp hother).1
      obtain rfl : View.poke [0] = view := Option.some.inj hview
      obtain rfl : j = 0 := by
        simp [opened] at hlt
        omega
      obtain rfl : View.poke [] = other := Option.some.inj hother
      simp [View.place]
    · intro x hx
      obtain rfl := List.mem_singleton.mp hx
      exact boundValue_sound 5
  have hstep : ∃ s' answer,
      rangeRuntime.step opened (.op 1 (.set (boundValue 5))) = .ok (s', answer) ∧
        s'.memory.root = rangeValue 5 2 ∧ s'.memory.written = [[0]] := ⟨_, _, rfl, rfl, rfl⟩
  obtain ⟨s', answer, hstep, hroot, hwritten⟩ := hstep
  have hchanged : PlacedTree.get? ([] ++ [0]) s'.memory.root ≠
      PlacedTree.get? ([] ++ [0]) opened.memory.root := by
    rw [hroot]
    intro hsame
    have hdatum := congrArg Label.head (congrArg PlacedTree.label (Option.some.inj hsame))
    simp [boundValue] at hdatum
  have hguarded : Guarded (rangeRuntime.shapes (rangeValue 1 2).shape) := by
    refine ⟨rfl, fun hby => hby, fun t ht => ?_⟩
    change Def.undefined = Def.option t at ht
    cases ht
  obtain ⟨t, ht, hprefix⟩ := h.2.1 opened _ s' answer hreached hallowed trivial hstep [] _ 0 rfl
    hguarded hchanged
  rw [hwritten] at ht
  obtain ⟨rfl, -⟩ := List.cons.inj ht
  simp at hprefix

end Facet.Poke
