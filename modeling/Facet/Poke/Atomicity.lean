import Facet.Poke.Calls

/-!
# Mutations are atomic and drop exactly

Over every sequence of calls, each made on a kind of value that its contracts permit, no
contract is violated, a refusal changes nothing, the cached lengths are the real ones, and
each value that was handed in is in the value, dropped, or handed back, once.
-/

namespace Facet.Poke

open Facet.Poke.Runtime (count)

variable {ι : Type} [DecidableEq ι]

/-- A view that is right about the value. -/
def View.Right (root : Value ι) : View → Prop
  | .poke p => ∃ n, count root p = some n
  | .listLike p len => count root p = some len

/-- What every session keeps. -/
structure Session.Good (R : Runtime ι) (s : Session ι) : Prop where
  sound : R.Sound s.memory.root
  views : ∀ (i : ℕ) (view : View), s.views[i]? = some view → view.Right s.memory.root
  tokens : s.memory.root.tokens + tokensAll s.memory.dropped + tokensAll s.returned = s.given
  freed : s.memory.freed = s.lent

namespace Session.Good

variable {R : Runtime ι} {s : Session ι}

omit [DecidableEq ι] in
theorem start {v : Value ι} (hv : R.Sound v) : Session.Good R (.start v) where
  sound := hv
  views _ _ h := by simp [Session.start] at h
  tokens := by simp [Session.start]
  freed := rfl

omit [DecidableEq ι] in
theorem get?_poke (hs : s.Good R) {i : ℕ} {p : Place} (h : s.views[i]? = some (.poke p)) :
    ∃ v : Value ι, PlacedTree.get? p s.memory.root = some v := by
  obtain ⟨n, hn⟩ := hs.views i _ h
  obtain ⟨v, hv, -⟩ := Runtime.exists_get?_of_count hn
  exact ⟨v, hv⟩

omit [DecidableEq ι] in
theorem get?_listLike (hs : s.Good R) {i : ℕ} {p : Place} {len : ℕ}
    (h : s.views[i]? = some (.listLike p len)) :
    ∃ v : Value ι, PlacedTree.get? p s.memory.root = some v ∧ len = v.children.length := by
  obtain ⟨v, hv, hlen⟩ := Runtime.exists_get?_of_count (hs.views i _ h)
  exact ⟨v, hv, hlen.symm⟩

omit [DecidableEq ι] in
theorem withView (hs : s.Good R) {reply : Reply ι View}
    (h : ∀ view, reply = .ok view → view.Right s.memory.root) : (s.withView reply).1.Good R := by
  cases reply with
  | error e => exact hs
  | ok view =>
    refine ⟨hs.sound, fun i w hw => ?_, hs.tokens, hs.freed⟩
    rcases List.mem_append.mp (List.mem_of_getElem? hw) with hmem | hmem
    · obtain ⟨j, hj⟩ := List.mem_iff_getElem?.mp hmem
      exact hs.views j w hj
    · obtain rfl := List.mem_singleton.mp hmem
      exact h w rfl

omit [DecidableEq ι] in
/-- After a call through one of the views, when that view is right again. -/
theorem after (hs : s.Good R) {i : ℕ} {p : Place} {m : Memory ι} {args : List (Arg ι)}
    {answer : Answer ι} {view view' : View} (hview : s.views[i]? = some view)
    (hp : view.place = p) (hexclusive : s.Exclusive i)
    (hkeeps : Runtime.RunKeeps R s.memory m p args answer) (hright : view'.Right m.root) :
    (s.after args (s.views.set i view') m answer).Good R where
  sound := hkeeps.sound
  views j w hw := by
    change (s.views.set i view')[j]? = some w at hw
    by_cases hij : i = j
    · subst hij
      have hlt := (List.getElem?_eq_some_iff.mp hview).1
      obtain rfl : view' = w := by simpa [hlt] using hw
      exact hright
    · rw [List.getElem?_set_ne hij] at hw
      have hapart : ¬ p <+: w.place := by
        rw [← hp]
        exact hexclusive j view w hview hw (Ne.symm hij)
      have hsame := hkeeps.elsewhere _ hapart
      have hbefore := hs.views j w hw
      cases w with
      | poke r =>
        obtain ⟨n, hn⟩ := hbefore
        exact ⟨n, hsame.trans hn⟩
      | listLike r len => exact hsame.trans hbefore
  tokens := by
    change m.root.tokens + tokensAll m.dropped + tokensAll (Poke.returned answer ++ s.returned) =
      s.given + tokensAll (argValues args)
    rw [tokensAll_append, ← add_assoc, hkeeps.tokens, ← hs.tokens]
    abel
  freed := by
    change m.freed = s.lent + _
    rw [hkeeps.freed, hs.freed]

end Session.Good

/-- The calls that ask for a kind of dynamic value are made on one of that kind, floats are
such that the type can hold them, and no field of an option's enum is entered that does not
lie where its offset says. -/
def Runtime.KindsRight (R : Runtime ι) (s : Session ι) : Command ι → Prop
  | .access i a =>
    ∀ (p : Place) (v : Value ι), s.views[i]? = some (.poke p) →
      PlacedTree.get? p s.memory.root = some v → Runtime.accessPermitted R v a
  | .op i op =>
    ∀ (p : Place) (v : Value ι), s.views[i]? = some (.poke p) →
      PlacedTree.get? p s.memory.root = some v →
        (∃ q, (R.pokeCall op).check v = .ok q) → R.pokePermitted v op ∧ R.floatHeld v op
  | _ => True

section Steps

variable {R : Runtime ι} {s : Session ι}

/-- What one step answers and keeps. -/
def StepKeeps (R : Runtime ι) (s : Session ι) (c : Command ι) : Prop :=
  ∃ s' answer, R.step s c = .ok (s', answer) ∧ s'.Good R ∧
    ∀ e, answer = .error e → s'.memory.root = s.memory.root

theorem step_access (hs : s.Good R) {i : ℕ} {a : Access ι}
    (hkinds : R.KindsRight s (.access i a)) : StepKeeps R s (.access i a) := by
  rw [StepKeeps, Runtime.step]
  cases hview : s.views[i]? with
  | none => exact ⟨s, _, rfl, hs, fun _ _ => rfl⟩
  | some view =>
    cases view with
    | listLike p len => exact ⟨s, _, rfl, hs, fun _ _ => rfl⟩
    | poke p =>
      obtain ⟨v, hv⟩ := hs.get?_poke hview
      have hsound : R.Sound v := PlacedTree.Everywhere.get? hs.sound hv
      obtain ⟨reply, hreply, hinside⟩ := Runtime.access_ok hsound a (hkinds p v hview hv)
      dsimp only
      rw [hv]
      dsimp only
      rw [hreply]
      refine ⟨_, _, rfl, ?_, ?_⟩
      · apply hs.withView
        intro view hok
        cases reply with
        | error e => cases hok
        | ok q =>
          obtain rfl : View.poke (p ++ q) = view := Except.ok.inj hok
          obtain ⟨w, hw⟩ := Value.Has.append hv (hinside q rfl)
          exact ⟨_, Runtime.count_of_get? hw⟩
      · intro e _
        cases reply <;> rfl

theorem step_item (hs : s.Good R) (i : ℕ) (a : ItemAccess) : StepKeeps R s (.item i a) := by
  rw [StepKeeps, Runtime.step]
  cases hview : s.views[i]? with
  | none => exact ⟨s, _, rfl, hs, fun _ _ => rfl⟩
  | some view =>
    cases view with
    | poke p => exact ⟨s, _, rfl, hs, fun _ _ => rfl⟩
    | listLike p len =>
      obtain ⟨v, hv, hlen⟩ := hs.get?_listLike hview
      have hinside := Runtime.itemAccess_inside (R := R) hlen a
      dsimp only
      rw [hv]
      refine ⟨_, _, rfl, ?_, ?_⟩
      · apply hs.withView
        intro view hok
        cases hreply : R.itemAccess v len a with
        | error e =>
          rw [hreply] at hok
          cases hok
        | ok q =>
          rw [hreply] at hok
          obtain rfl : View.poke (p ++ q) = view := Except.ok.inj hok
          obtain ⟨w, hw⟩ := Value.Has.append hv (hinside q hreply)
          exact ⟨_, Runtime.count_of_get? hw⟩
      · intro e _
        cases R.itemAccess v len a <;> rfl

omit [DecidableEq ι] in
theorem listLikeLen_eq {v : Value ι} (hv : R.Fits v) {listDef : Runtime.ListLikeDef ι}
    (hinto : R.intoListLike v = .ok listDef) :
    Runtime.listLikeLen v listDef = v.children.length := by
  cases listDef with
  | list t => rfl
  | slice t => rfl
  | array t n =>
    have hfits := hv.byDef
    rw [Runtime.DefFits, Runtime.intoListLike_ok hinto] at hfits
    have hlength := congrArg List.length hfits.2
    rw [Value.childShapes, List.length_map, List.length_replicate] at hlength
    exact hlength.symm

theorem step_intoListLike (hs : s.Good R) (i : ℕ) : StepKeeps R s (.intoListLike i) := by
  rw [StepKeeps, Runtime.step]
  cases hview : s.views[i]? with
  | none => exact ⟨s, _, rfl, hs, fun _ _ => rfl⟩
  | some view =>
    cases view with
    | listLike p len => exact ⟨s, _, rfl, hs, fun _ _ => rfl⟩
    | poke p =>
      obtain ⟨v, hv⟩ := hs.get?_poke hview
      dsimp only
      rw [hv]
      dsimp only
      cases hinto : R.intoListLike v with
      | error e => exact ⟨s, _, rfl, hs, fun _ _ => rfl⟩
      | ok listDef =>
        refine ⟨_, _, rfl, ⟨hs.sound, fun j w hw => ?_, hs.tokens, hs.freed⟩, fun _ _ => rfl⟩
        by_cases hij : i = j
        · subst hij
          have hlt := (List.getElem?_eq_some_iff.mp hview).1
          obtain rfl : View.listLike p (Runtime.listLikeLen v listDef) = w := by
            simpa [hlt] using hw
          have hfits : R.Fits v :=
            PlacedTree.Everywhere.self (PlacedTree.Everywhere.get? hs.sound hv)
          change count s.memory.root p = _
          rw [listLikeLen_eq hfits hinto]
          exact Runtime.count_of_get? hv
        · have hsame : (s.views.set i (.listLike p (Runtime.listLikeLen v listDef)))[j]? =
              s.views[j]? := List.getElem?_set_ne hij
          exact hs.views j w (hsame.symm.trans hw)

theorem step_op (hs : s.Good R) {i : ℕ} {op : PokeOp ι} (hallowed : R.Allowed s (.op i op))
    (hkinds : R.KindsRight s (.op i op)) : StepKeeps R s (.op i op) := by
  rw [StepKeeps, Runtime.step]
  cases hview : s.views[i]? with
  | none => exact ⟨s, _, rfl, hs, fun _ _ => rfl⟩
  | some view =>
    cases view with
    | listLike p len => exact ⟨s, _, rfl, hs, fun _ _ => rfl⟩
    | poke p =>
      obtain ⟨v, hv⟩ := hs.get?_poke hview
      have hsound : R.Sound v := PlacedTree.Everywhere.get? hs.sound hv
      have hargs : ∀ x ∈ (R.call (.poke op)).args, R.Sound x.value := hallowed.2
      have hop : ∀ q, (R.call (.poke op)).check v = .ok q →
          Runtime.opPermitted R v (.poke op) := fun q hq => hkinds p v hview hv ⟨q, hq⟩
      obtain ⟨⟨m, answer⟩, hrun⟩ := Runtime.run_ok hv hsound hargs hop
      have hkeeps := Runtime.run_keeps hs.sound hv hargs hop hrun
      have hrun' : (R.pokeCall op).run s.memory p = .ok (m, answer) := hrun
      dsimp only
      rw [hrun']
      refine ⟨_, answer, rfl, ?_, hkeeps.unchanged⟩
      have hsame : s.views.set i (.poke p) = s.views := by
        apply List.ext_getElem?
        intro j
        by_cases hij : i = j
        · subst hij
          have hlt := (List.getElem?_eq_some_iff.mp hview).1
          rw [List.getElem?_set_self hlt, hview]
        · rw [List.getElem?_set_ne hij]
      have hgood : (s.after (R.pokeCall op).args (s.views.set i (.poke p)) m answer).Good R :=
        hs.after hview rfl hallowed.1 hkeeps hkeeps.there
      rwa [hsame] at hgood

theorem step_listLikeOp (hs : s.Good R) {i : ℕ} {op : ListLikeOp ι}
    (hallowed : R.Allowed s (.listLikeOp i op)) : StepKeeps R s (.listLikeOp i op) := by
  rw [StepKeeps, Runtime.step]
  cases hview : s.views[i]? with
  | none => exact ⟨s, _, rfl, hs, fun _ _ => rfl⟩
  | some view =>
    cases view with
    | poke p => exact ⟨s, _, rfl, hs, fun _ _ => rfl⟩
    | listLike p len =>
      obtain ⟨v, hv, hlen⟩ := hs.get?_listLike hview
      have hsound : R.Sound v := PlacedTree.Everywhere.get? hs.sound hv
      have hargs : ∀ x ∈ (R.call (.listLike len op)).args, R.Sound x.value := by
        have hsame : (R.call (.listLike len op)).args = (R.listLikeCall 0 op).args := by
          cases op <;> rfl
        rw [hsame]
        exact hallowed.2
      have hop : ∀ q, (R.call (.listLike len op)).check v = .ok q →
          Runtime.opPermitted R v (.listLike len op) := fun _ _ => hlen
      obtain ⟨⟨m, answer⟩, hrun⟩ := Runtime.run_ok hv hsound hargs hop
      have hkeeps := Runtime.run_keeps hs.sound hv hargs hop hrun
      have hrun' : (R.listLikeCall len op).run s.memory p = .ok (m, answer) := hrun
      have hcount := Runtime.run_listLike_count hv hrun'
      dsimp only
      rw [hrun']
      refine ⟨_, answer, rfl, ?_, hkeeps.unchanged⟩
      apply hs.after hview rfl hallowed.1 hkeeps
      change count m.root p = some (op.cachedAfter len answer)
      rw [hlen]
      exact hcount

/-- A step that is allowed and made on the right kinds violates no contract. -/
theorem step_keeps (hs : s.Good R) {c : Command ι} (hallowed : R.Allowed s c)
    (hkinds : R.KindsRight s c) : StepKeeps R s c := by
  cases c with
  | new =>
    have hgood : (s.withView (.ok (.poke []))).1.Good R := by
      apply hs.withView
      intro view hview
      obtain rfl : View.poke [] = view := Except.ok.inj hview
      exact ⟨_, Runtime.count_of_get? rfl⟩
    exact ⟨_, _, rfl, hgood, fun _ _ => rfl⟩
  | access i a => exact step_access hs hkinds
  | item i a => exact step_item hs i a
  | intoListLike i => exact step_intoListLike hs i
  | close i =>
    refine ⟨_, _, rfl, ⟨hs.sound, fun j w hw => ?_, hs.tokens, hs.freed⟩, fun _ _ => rfl⟩
    obtain ⟨k, hk⟩ := List.mem_iff_getElem?.mp
      (List.mem_of_mem_eraseIdx (List.mem_of_getElem? hw))
    exact hs.views k w hk
  | op i op => exact step_op hs hallowed hkinds
  | listLikeOp i op => exact step_listLikeOp hs hallowed

theorem reached_good {v : Value ι} (hv : R.Sound v) (hs : Reached R R.KindsRight v s) :
    s.Good R := by
  induction hs with
  | start => exact Session.Good.start hv
  | step _ hallowed hkinds hstep ih =>
    obtain ⟨s', answer, hstep', hgood, -⟩ := step_keeps ih hallowed hkinds
    obtain ⟨rfl, -⟩ := Prod.mk.inj (Except.ok.inj (hstep'.symm.trans hstep))
    exact hgood

end Steps

/-- The value is initialised, the cached lengths are right, and the accounts are even. -/
structure Session.Exact (s : Session ι) : Prop where
  whole : s.memory.root.Whole
  cached : ∀ (i : ℕ) (p : Place) (len : ℕ), s.views[i]? = some (.listLike p len) →
    count s.memory.root p = some len
  tokens : s.memory.root.tokens + tokensAll s.memory.dropped + tokensAll s.returned = s.given
  freed : s.memory.freed = s.lent

/-- In every session on the value all is exact, and no step that is allowed violates a
contract or changes anything when it refuses. -/
def Runtime.AtomicOver (R : Runtime ι) (permits : Session ι → Command ι → Prop)
    (v : Value ι) : Prop :=
  ∀ s, Reached R permits v s → s.Exact ∧
    ∀ c, R.Allowed s c → permits s c → ∃ s' answer, R.step s c = .ok (s', answer) ∧
      ∀ e, answer = .error e → s'.memory.root = s.memory.root

omit [DecidableEq ι] in
theorem Session.Good.exact {R : Runtime ι} {s : Session ι} (hs : s.Good R) : s.Exact where
  whole := hs.sound.whole
  cached i _ _ h := hs.views i _ h
  tokens := hs.tokens
  freed := hs.freed

/-- A program with one dynamic type, which holds every float but not a number. -/
def dynRuntime : Runtime Unit where
  shapes _ := { ty := .user .opaqueTy, «def» := .dynamicValue }
  tables := {
    listGetMut _ := false
    listPush _ := false
    listPop _ := false
    listSwap _ := false
    listAsMutPtr _ := false
    ndArrayGetMut _ := false
    dynSetBytes _ := true
    dynEndArray _ := false
    dynEndObject _ := false
    dynObjectGetMut _ := true
    representable _ bits := bits != 0x7FF8000000000000
    keyEq _ _ _ := false
    someOffset _ := 0 }
  viewsAgree _ := trivial

def nullValue : Value Unit := .node ⟨(), .dynamic .null, none⟩ []

theorem nullValue_sound : dynRuntime.Sound nullValue := by
  apply Runtime.sound_node.mpr
  refine ⟨?_, fun c hc => absurd hc List.not_mem_nil⟩
  exact Runtime.fits_dynamic rfl rfl (fun t ht => absurd ht List.not_mem_nil) (le_refl 0)

end Facet.Poke
