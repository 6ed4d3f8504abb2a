import Facet.Poke.Operations
import Facet.Lib.ExceptList

/-!
# What an operation leaves behind

The effect of an operation whose checks passed, as a function of the old value: the new
value, what was dropped, and the answer. A commit that violates no contract has exactly
this effect, and it violates none on an initialised value of the kind it asks for.
-/

namespace Facet.Poke

variable {ι : Type}

structure Effect (ι : Type) where
  value : Value ι
  dropped : List (Value ι) := []
  answer : Answer ι := .ok none

/-- The memory after an effect. -/
def Effect.on (e : Effect ι) (args : List (Arg ι)) (s : Slot ι) : Slot ι :=
  ⟨e.value, e.dropped ++ s.dropped, s.freed + (args.map Arg.buffers).sum⟩

namespace Effect

variable (v : Value ι)

def replacing (x : Value ι) : Effect ι := { value := x, dropped := [v] }

/-- The value is replaced by a new container. -/
def rebuilding (head : Head) (children : List (Value ι)) : Effect ι :=
  replacing v (.node ⟨v.shape, head, none⟩ children)

def pushing (x : Value ι) : Effect ι := { value := v.push x }

def popping : Effect ι :=
  match v.pop with
  | some (rest, x) => { value := rest, answer := .ok (some x) }
  | none => { value := v, answer := .error .absent }

def swapping (a b : ℕ) (e : Refusal ι) : Effect ι :=
  match v.swap a b with
  | some swapped => { value := swapped }
  | none => { value := v, answer := .error e }

def inserting (after : Value ι × List (Value ι)) (answer : Answer ι) : Effect ι :=
  { value := after.1, dropped := after.2, answer }

end Effect

/-- The keys of an object, none for the other kinds. -/
def Value.keys (v : Value ι) : List String :=
  match v.head with
  | .dynamic (.object keys) => keys
  | _ => []

def Value.IsArray (v : Value ι) : Prop := v.head = .dynamic .array

def Value.IsObject (v : Value ι) : Prop := v.head = .dynamic (.object v.keys)

namespace Runtime

variable (R : Runtime ι)

def pokeEffect (v : Value ι) : PokeOp ι → Effect ι
  | .set x | .structSetField _ x | .structSetFieldByName _ x | .tupleSetField _ x => .replacing v x
  | .enumSetField _ x | .enumSetFieldByName _ x => .replacing v x.value
  | .setSome x => .rebuilding v .some [x.value]
  | .setNone => .rebuilding v .none []
  | .setOk x => .rebuilding v .ok [x.value]
  | .setErr x => .rebuilding v .err [x.value]
  | .listPush x => .pushing v x.value
  | .listPop => .popping v
  | .listSwap a b =>
    .swapping v a b (.indexOutOfBounds v.shape (if v.children.length ≤ a then a else b)
      v.children.length)
  | .mapInsert k x =>
    .inserting (v.mapInsert (R.tables.keyEq v.shape) k.value x.value) (.ok none)
  | .setInsert x =>
    .inserting (v.setInsert (R.tables.keyEq v.shape) x.value)
      (if v.holds (R.tables.keyEq v.shape) x.value then .error .absent else .ok none)
  | .dynSet setter => .rebuilding v (.dynamic setter.content) []
  | .setF64 bits =>
    if R.tables.representable v.shape bits then .rebuilding v (.dynamic (.f64 bits)) []
    else { value := .uninit v.shape, dropped := [v], answer := .error .absent }
  | .setBytes bytes => .rebuilding v (.dynamic (.bytes bytes)) []
  | .pushArrayElement x => .pushing v x.value
  | .insertObjectEntry key x => .inserting (v.insertObjectEntry v.keys key x.value) (.ok none)
  | .endArray | .endObject => { value := v }

def listLikeEffect (v : Value ι) : ListLikeOp ι → Effect ι
  | .push x => .pushing v x.value
  | .pop => .popping v
  | .swap a b =>
    if a = b then { value := v }
    else .swapping v a b (.operationFailed v.shape "swap: vtable refused the operation")

def effect (v : Value ι) : Op ι → Effect ι
  | .poke op => R.pokeEffect v op
  | .listLike _ op => listLikeEffect v op

/-- The kind of value that the functions called ask for. -/
def pokePermitted (v : Value ι) : PokeOp ι → Prop
  | .pushArrayElement _ => v.IsArray
  | .insertObjectEntry _ _ => v.IsObject
  | .endArray => R.tables.dynEndArray v.shape → v.IsArray
  | .endObject => R.tables.dynEndObject v.shape → v.IsObject
  | _ => True

/-- The elements that a list-like's functions reach. -/
def listLikePermitted (v : Value ι) : ListLikeOp ι → Prop
  | .swap a b =>
    a = b ∨ (R.intoList v).isOk ∨ (a < v.children.length ∧ b < v.children.length)
  | _ => True

def permitted (v : Value ι) : Op ι → Prop
  | .poke op => R.pokePermitted v op
  | .listLike _ op => R.listLikePermitted v op

end Runtime

namespace Slot

variable {s : Slot ι} {x : Value ι}

theorem replace_of_whole (h : s.value.Whole) (x : Value ι) :
    s.replace x = .ok ⟨x, s.value :: s.dropped, s.freed⟩ := by
  have huninit : ¬ (Value.uninit s.value.shape).Initialised := by
    simp [Value.Initialised, Value.head, Value.uninit]
  have hwrite : write ⟨.uninit s.value.shape, s.value :: s.dropped, s.freed⟩ x =
      .ok ⟨x, s.value :: s.dropped, s.freed⟩ := if_neg huninit
  rw [replace, dropInPlace, if_pos h]
  exact hwrite

theorem replace_of_not_whole (h : ¬ s.value.Whole) (x : Value ι) :
    s.replace x = .error .notInitialised := by
  rw [replace, dropInPlace, if_neg h]
  rfl

theorem edit_of_whole (h : s.value.Whole) (f : Value ι → Value ι × List (Value ι)) :
    s.edit f = .ok ⟨(f s.value).1, (f s.value).2 ++ s.dropped, s.freed⟩ := if_pos h

theorem edit_of_not_whole (h : ¬ s.value.Whole) (f : Value ι → Value ι × List (Value ι)) :
    s.edit f = .error .notInitialised := if_neg h

/-- To drop a value and write a new container is to replace it. -/
theorem dropInPlace_write (s : Slot ι) (f : ι → Value ι) :
    (s.dropInPlace >>= fun s => s.write (f s.value.shape)) = s.replace (f s.value.shape) := by
  rw [replace]
  by_cases h : s.value.Whole
  · rw [dropInPlace, if_pos h]
    rfl
  · rw [dropInPlace, if_neg h]
    rfl

theorem dropInPlace_cases (s : Slot ι) :
    s.dropInPlace = .ok ⟨.uninit s.value.shape, s.value :: s.dropped, s.freed⟩ ∧ s.value.Whole ∨
      s.dropInPlace = .error .notInitialised ∧ ¬ s.value.Whole := by
  by_cases h : s.value.Whole
  · exact .inl ⟨if_pos h, h⟩
  · exact .inr ⟨if_neg h, h⟩

/-- For memory that is initialised a replacement succeeds, for other memory it does not. -/
theorem replace_cases (s : Slot ι) (x : Value ι) :
    s.replace x = .ok ⟨x, s.value :: s.dropped, s.freed⟩ ∧ s.value.Whole ∨
      s.replace x = .error .notInitialised ∧ ¬ s.value.Whole := by
  by_cases h : s.value.Whole
  · exact .inl ⟨replace_of_whole h x, h⟩
  · exact .inr ⟨replace_of_not_whole h x, h⟩

theorem edit_cases (s : Slot ι) (f : Value ι → Value ι × List (Value ι)) :
    s.edit f = .ok ⟨(f s.value).1, (f s.value).2 ++ s.dropped, s.freed⟩ ∧ s.value.Whole ∨
      s.edit f = .error .notInitialised ∧ ¬ s.value.Whole := by
  by_cases h : s.value.Whole
  · exact .inl ⟨edit_of_whole h f, h⟩
  · exact .inr ⟨edit_of_not_whole h f, h⟩

theorem pushArrayElement_of_isArray (h : s.value.IsArray) (x : Value ι) :
    s.pushArrayElement x = s.edit fun v => (v.push x, []) := if_pos h

theorem pushArrayElement_of_not_isArray (h : ¬ s.value.IsArray) (x : Value ι) :
    s.pushArrayElement x = .error .notAnArray := if_neg h

theorem endArray_of_isArray (h : s.value.IsArray) : s.endArray = s.edit fun v => (v, []) :=
  if_pos h

theorem endArray_of_not_isArray (h : ¬ s.value.IsArray) : s.endArray = .error .notAnArray :=
  if_neg h

theorem insertObjectEntry_of_isObject (h : s.value.IsObject) (key : String) (x : Value ι) :
    s.insertObjectEntry key x = s.edit fun v => v.insertObjectEntry s.value.keys key x := by
  rw [insertObjectEntry, h]

theorem insertObjectEntry_of_not_isObject (h : ¬ s.value.IsObject) (key : String)
    (x : Value ι) : s.insertObjectEntry key x = .error .notAnObject := by
  rw [insertObjectEntry]
  cases hhead : s.value.head with
  | dynamic content =>
    cases content with
    | object keys =>
      have hkeys : s.value.keys = keys := by rw [Value.keys, hhead]
      exact absurd (by rw [Value.IsObject, hhead, hkeys]) h
    | _ => rfl
  | _ => rfl

theorem endObject_of_isObject (h : s.value.IsObject) :
    s.endObject = s.edit fun v => (v, []) := by
  rw [endObject, h]

theorem endObject_of_not_isObject (h : ¬ s.value.IsObject) :
    s.endObject = .error .notAnObject := by
  rw [endObject]
  cases hhead : s.value.head with
  | dynamic content =>
    cases content with
    | object keys =>
      have hkeys : s.value.keys = keys := by rw [Value.keys, hhead]
      exact absurd (by rw [Value.IsObject, hhead, hkeys]) h
    | _ => rfl
  | _ => rfl

end Slot

namespace Call

/-- A commit with this effect, unless it violates a contract. -/
def Does (c : Call ι) (s : Slot ι) (e : Effect ι) (permitted : Prop) : Prop :=
  (∀ r, c.commit s = .ok r → r = (e.on c.args s, e.answer)) ∧
    (s.value.Whole → permitted → ∃ r, c.commit s = .ok r)

variable {c : Call ι} {s after : Slot ι} {e : Effect ι} {permitted : Prop}

/-- One primitive that asks for an initialised value, and bookkeeping after it. -/
theorem Does.of_cases {step : Checked (Slot ι)} {err : Violation}
    (hstep : step = .ok after ∧ s.value.Whole ∨ step = .error err ∧ ¬ s.value.Whole)
    {book : Slot ι → Slot ι × Answer ι}
    (hcommit : c.commit s = step >>= fun s => .ok (book s))
    (hbook : book after = (e.on c.args s, e.answer)) : c.Does s e permitted := by
  rcases hstep with ⟨hok, -⟩ | ⟨herr, hwhole⟩
  · have hdone : c.commit s = .ok (e.on c.args s, e.answer) := by
      rw [hcommit, hok, ← hbook]
      rfl
    exact ⟨fun r hr => Except.ok.inj (hr.symm.trans hdone), fun _ _ => ⟨_, hdone⟩⟩
  · have hfail : c.commit s = .error err := by
      rw [hcommit, herr]
      rfl
    constructor
    · intro _ hr
      rw [hfail] at hr
      cases hr
    · exact fun h => absurd h hwhole

theorem Does.of_ok (h : c.commit s = .ok (e.on c.args s, e.answer)) : c.Does s e permitted :=
  ⟨fun _ hr => Except.ok.inj (hr.symm.trans h), fun _ _ => ⟨_, h⟩⟩

theorem Does.of_error (err : Violation) (h : c.commit s = .error err) (hnot : ¬ permitted) :
    c.Does s e permitted := by
  constructor
  · intro _ hr
    rw [h] at hr
    cases hr
  · exact fun _ hp => absurd hp hnot

end Call

namespace Runtime

variable (R : Runtime ι) (s : Slot ι)

theorem storeField_does (c : Call ι) (x : Arg ι) (hargs : c.args = [x])
    (hcommit : c.commit = storeField x) :
    c.Does s (.replacing s.value x.value) True := by
  apply Call.Does.of_cases (s.replace_cases x.value) (congrFun hcommit s)
  simp [Effect.on, Effect.replacing, hargs, Slot.release]

theorem dynSet_does (c : Call ι) (content : DynContent) (hargs : c.args = [])
    (hcommit : c.commit = (R.dynSet content).commit) :
    c.Does s (.rebuilding s.value (.dynamic content) []) True := by
  have hwrite := s.dropInPlace_write fun shape => .node ⟨shape, .dynamic content, none⟩ []
  have hone : c.commit s =
      s.replace (.node ⟨s.value.shape, .dynamic content, none⟩ []) >>=
        fun s => .ok (s, .ok none) := by
    rw [← hwrite, hcommit, bind_assoc]
    rfl
  apply Call.Does.of_cases (s.replace_cases _) hone
  simp [Effect.on, Effect.rebuilding, Effect.replacing, hargs]

theorem commitPush_does (c : Call ι) (x : Arg ι) (hargs : c.args = [x])
    (hcommit : c.commit = commitPush x) : c.Does s (.pushing s.value x.value) True := by
  apply Call.Does.of_cases (s.edit_cases _) (congrFun hcommit s)
  simp [Effect.on, Effect.pushing, hargs, Slot.release]

theorem commitPop_does (c : Call ι) (hargs : c.args = []) (hcommit : c.commit = commitPop) :
    c.Does s (.popping s.value) True := by
  cases hpop : s.value.pop with
  | some popped =>
    have hone : c.commit s = s.edit (fun _ => (popped.1, [])) >>=
        fun s => .ok (s, .ok (some popped.2)) := by
      rw [hcommit, commitPop, hpop]
      rfl
    apply Call.Does.of_cases (s.edit_cases _) hone
    simp [Effect.on, Effect.popping, hpop, hargs]
  | none =>
    have hone : c.commit s = s.edit (fun v => (v, [])) >>=
        fun s => .ok (s, .error .absent) := by
      rw [hcommit, commitPop, hpop]
      rfl
    apply Call.Does.of_cases (s.edit_cases _) hone
    simp [Effect.on, Effect.popping, hpop, hargs]

theorem setOk_does (x : Arg ι) [DecidableEq ι] :
    (R.setOk x).Does s (.rebuilding s.value .ok [x.value]) True := by
  have hwrite := s.dropInPlace_write fun shape => .node ⟨shape, .ok, none⟩ [x.value]
  have hone : (R.setOk x).commit s =
      s.replace (.node ⟨s.value.shape, .ok, none⟩ [x.value]) >>=
        fun s => .ok (s.release x, .ok none) := by
    rw [← hwrite, bind_assoc]
    rfl
  apply Call.Does.of_cases (s.replace_cases _) hone
  simp [Effect.on, Effect.rebuilding, Effect.replacing, setOk, Slot.release]

theorem setErr_does (x : Arg ι) [DecidableEq ι] :
    (R.setErr x).Does s (.rebuilding s.value .err [x.value]) True := by
  have hwrite := s.dropInPlace_write fun shape => .node ⟨shape, .err, none⟩ [x.value]
  have hone : (R.setErr x).commit s =
      s.replace (.node ⟨s.value.shape, .err, none⟩ [x.value]) >>=
        fun s => .ok (s.release x, .ok none) := by
    rw [← hwrite, bind_assoc]
    rfl
  apply Call.Does.of_cases (s.replace_cases _) hone
  simp [Effect.on, Effect.rebuilding, Effect.replacing, setErr, Slot.release]

theorem setF64_does (bits : BitVec 64) :
    (R.setF64 bits).Does s (R.pokeEffect s.value (.setF64 bits)) True := by
  by_cases hbits : R.tables.representable s.value.shape bits = true
  · have hwrite :=
      s.dropInPlace_write fun shape => .node ⟨shape, .dynamic (.f64 bits), none⟩ []
    have hone : (R.setF64 bits).commit s =
        s.replace (.node ⟨s.value.shape, .dynamic (.f64 bits), none⟩ []) >>=
          fun s => .ok (s, .ok none) := by
      rw [← hwrite, bind_assoc]
      dsimp only [setF64]
      rcases s.dropInPlace_cases with ⟨hdrop, -⟩ | ⟨hdrop, -⟩
      · rw [hdrop]
        exact if_pos hbits
      · rw [hdrop]
        rfl
    apply Call.Does.of_cases (s.replace_cases _) hone
    simp [Effect.on, pokeEffect, hbits, Effect.rebuilding, Effect.replacing, setF64]
  · have hone : (R.setF64 bits).commit s =
        s.dropInPlace >>= fun s => .ok (s, .error .absent) := by
      dsimp only [setF64]
      rcases s.dropInPlace_cases with ⟨hdrop, -⟩ | ⟨hdrop, -⟩
      · rw [hdrop]
        exact if_neg hbits
      · rw [hdrop]
        rfl
    apply Call.Does.of_cases s.dropInPlace_cases hone
    simp [Effect.on, pokeEffect, hbits, setF64]

theorem listSwap_does (a b : ℕ) :
    (R.listSwap a b).Does s (R.pokeEffect s.value (.listSwap a b)) True := by
  cases hswap : s.value.swap a b with
  | some swapped =>
    have hone : (R.listSwap a b).commit s =
        s.edit (fun _ => (swapped, [])) >>= fun s => .ok (s, .ok none) := by
      dsimp only [listSwap]
      rw [hswap]
      rfl
    apply Call.Does.of_cases (s.edit_cases _) hone
    simp [Effect.on, pokeEffect, Effect.swapping, hswap, listSwap]
  | none =>
    have hone : (R.listSwap a b).commit s =
        s.edit (fun v => (v, [])) >>= fun s' => .ok (s', .error (.indexOutOfBounds s'.value.shape
          (if s.value.children.length ≤ a then a else b) s.value.children.length)) := by
      dsimp only [listSwap]
      rw [hswap]
      rfl
    apply Call.Does.of_cases (s.edit_cases _) hone
    simp [Effect.on, pokeEffect, Effect.swapping, hswap, listSwap]

theorem listLikeSwap_does (len a b : ℕ) :
    (R.listLikeSwap len a b).Does s (listLikeEffect s.value (.swap a b))
      (R.listLikePermitted s.value (.swap a b)) := by
  by_cases hab : a = b
  · apply Call.Does.of_ok
    dsimp only [listLikeSwap]
    rw [if_pos hab]
    simp [Effect.on, listLikeEffect, hab]
  · cases hswap : s.value.swap a b with
    | some swapped =>
      have hone : (R.listLikeSwap len a b).commit s =
          s.edit (fun _ => (swapped, [])) >>= fun s => .ok (s, .ok none) := by
        dsimp only [listLikeSwap]
        rw [if_neg hab, hswap]
        rfl
      apply Call.Does.of_cases (s.edit_cases _) hone
      simp [Effect.on, listLikeEffect, hab, Effect.swapping, hswap, listLikeSwap]
    | none =>
      cases hlist : R.intoList s.value with
      | ok t =>
        have hone : (R.listLikeSwap len a b).commit s =
            s.edit (fun v => (v, [])) >>= fun s => .ok (s, .error
              (.operationFailed s.value.shape "swap: vtable refused the operation")) := by
          dsimp only [listLikeSwap]
          rw [if_neg hab, hswap, hlist]
          rfl
        apply Call.Does.of_cases (s.edit_cases _) hone
        simp [Effect.on, listLikeEffect, hab, Effect.swapping, hswap, listLikeSwap]
      | error e =>
        apply Call.Does.of_error .outOfBounds
        · dsimp only [listLikeSwap]
          rw [if_neg hab, hswap, hlist]
        · intro hpermitted
          rcases hpermitted with heq | hok | ⟨ha, hb⟩
          · exact hab heq
          · rw [hlist] at hok
            cases hok
          · simp [Value.swap, ha, hb] at hswap

theorem setInsert_does [DecidableEq ι] (x : Arg ι) :
    (R.setInsert x).Does s (R.pokeEffect s.value (.setInsert x)) True := by
  apply Call.Does.of_cases (s.edit_cases _) rfl
  simp [Effect.on, pokeEffect, Effect.inserting, setInsert, Slot.release]

theorem mapInsert_does [DecidableEq ι] (k x : Arg ι) :
    (R.mapInsert k x).Does s (R.pokeEffect s.value (.mapInsert k x)) True := by
  apply Call.Does.of_cases (s.edit_cases _) rfl
  simp [Effect.on, pokeEffect, Effect.inserting, mapInsert, Slot.release, add_assoc]

theorem pushArrayElement_does [DecidableEq ι] (x : Arg ι) :
    (R.pushArrayElement x).Does s (.pushing s.value x.value) s.value.IsArray := by
  by_cases harray : s.value.IsArray
  · have hone : (R.pushArrayElement x).commit s =
        s.edit (fun v => (v.push x.value, [])) >>= fun s => .ok (s.release x, .ok none) := by
      dsimp only [pushArrayElement]
      rw [Slot.pushArrayElement_of_isArray harray]
      rfl
    apply Call.Does.of_cases (s.edit_cases _) hone
    simp [Effect.on, Effect.pushing, pushArrayElement, Slot.release]
  · apply Call.Does.of_error .notAnArray _ harray
    dsimp only [pushArrayElement]
    rw [Slot.pushArrayElement_of_not_isArray harray]
    rfl

theorem insertObjectEntry_does [DecidableEq ι] (key : String) (x : Arg ι) :
    (R.insertObjectEntry key x).Does s (R.pokeEffect s.value (.insertObjectEntry key x))
      s.value.IsObject := by
  by_cases hobject : s.value.IsObject
  · have hone : (R.insertObjectEntry key x).commit s =
        s.edit (fun v => v.insertObjectEntry s.value.keys key x.value) >>=
          fun s => .ok (s.release x, .ok none) := by
      dsimp only [insertObjectEntry]
      rw [Slot.insertObjectEntry_of_isObject hobject]
      rfl
    apply Call.Does.of_cases (s.edit_cases _) hone
    simp [Effect.on, pokeEffect, Effect.inserting, insertObjectEntry, Slot.release]
  · apply Call.Does.of_error .notAnObject _ hobject
    dsimp only [insertObjectEntry]
    rw [Slot.insertObjectEntry_of_not_isObject hobject]
    rfl

theorem endArray_does :
    R.endArray.Does s { value := s.value } (R.tables.dynEndArray s.value.shape → s.value.IsArray) := by
  by_cases hhas : R.tables.dynEndArray s.value.shape = true
  · by_cases harray : s.value.IsArray
    · have hone : R.endArray.commit s =
          s.edit (fun v => (v, [])) >>= fun s => .ok (s, .ok none) := by
        dsimp only [endArray]
        rw [if_pos hhas, Slot.endArray_of_isArray harray]
        rfl
      apply Call.Does.of_cases (s.edit_cases _) hone
      simp [Effect.on, endArray]
    · apply Call.Does.of_error .notAnArray
      · dsimp only [endArray]
        rw [if_pos hhas, Slot.endArray_of_not_isArray harray]
        rfl
      · exact fun h => harray (h hhas)
  · apply Call.Does.of_ok
    dsimp only [endArray]
    rw [if_neg hhas]
    simp [Effect.on, pure, Except.pure]

theorem endObject_does :
    R.endObject.Does s { value := s.value }
      (R.tables.dynEndObject s.value.shape → s.value.IsObject) := by
  by_cases hhas : R.tables.dynEndObject s.value.shape = true
  · by_cases hobject : s.value.IsObject
    · have hone : R.endObject.commit s =
          s.edit (fun v => (v, [])) >>= fun s => .ok (s, .ok none) := by
        dsimp only [endObject]
        rw [if_pos hhas, Slot.endObject_of_isObject hobject]
        rfl
      apply Call.Does.of_cases (s.edit_cases _) hone
      simp [Effect.on, endObject]
    · apply Call.Does.of_error .notAnObject
      · dsimp only [endObject]
        rw [if_pos hhas, Slot.endObject_of_not_isObject hobject]
        rfl
      · exact fun h => hobject (h hhas)
  · apply Call.Does.of_ok
    dsimp only [endObject]
    rw [if_neg hhas]
    simp [Effect.on, pure, Except.pure]

variable [DecidableEq ι]

theorem setSome_does (x : Arg ι) :
    (R.setSome x).Does s (.rebuilding s.value .some [x.value]) True := by
  apply Call.Does.of_cases (s.edit_cases _) rfl
  simp [Effect.on, Effect.rebuilding, Effect.replacing, setSome, Slot.release]

omit [DecidableEq ι] in
theorem setNone_does : R.setNone.Does s (.rebuilding s.value .none []) True := by
  apply Call.Does.of_cases (s.edit_cases _) rfl
  simp [Effect.on, Effect.rebuilding, Effect.replacing, setNone]

theorem pokeCall_does (op : PokeOp ι) :
    (R.pokeCall op).Does s (R.pokeEffect s.value op) (R.pokePermitted s.value op) := by
  cases op with
  | set x =>
    apply Call.Does.of_cases (s.replace_cases x) rfl
    simp [Effect.on, pokeEffect, Effect.replacing, pokeCall, set, Arg.buffers]
  | structSetField index x => exact storeField_does s _ ⟨x, false⟩ rfl rfl
  | structSetFieldByName name x => exact storeField_does s _ ⟨x, false⟩ rfl rfl
  | tupleSetField index x => exact storeField_does s _ ⟨x, false⟩ rfl rfl
  | enumSetField index x => exact storeField_does s _ x rfl rfl
  | enumSetFieldByName name x => exact storeField_does s _ x rfl rfl
  | setSome x => exact R.setSome_does s x
  | setNone => exact R.setNone_does s
  | setOk x => exact R.setOk_does s x
  | setErr x => exact R.setErr_does s x
  | listPush x => exact commitPush_does s _ x rfl rfl
  | listPop => exact commitPop_does s _ rfl rfl
  | listSwap a b => exact R.listSwap_does s a b
  | mapInsert k x => exact R.mapInsert_does s k x
  | setInsert x => exact R.setInsert_does s x
  | dynSet setter =>
    rw [pokeCall, dynSetter_eq]
    exact R.dynSet_does s _ setter.content rfl rfl
  | setF64 bits => exact R.setF64_does s bits
  | setBytes bytes => exact R.dynSet_does s _ (.bytes bytes) rfl rfl
  | pushArrayElement x => exact R.pushArrayElement_does s x
  | insertObjectEntry key x => exact R.insertObjectEntry_does s key x
  | endArray => exact R.endArray_does s
  | endObject => exact R.endObject_does s

theorem listLikeCall_does (len : ℕ) (op : ListLikeOp ι) :
    (R.listLikeCall len op).Does s (listLikeEffect s.value op) (R.listLikePermitted s.value op) := by
  cases op with
  | push x => exact commitPush_does s _ x rfl rfl
  | pop => exact commitPop_does s _ rfl rfl
  | swap a b => exact R.listLikeSwap_does s len a b

/-- Every commit that violates no contract has the effect of its operation. -/
theorem call_does (op : Op ι) :
    (R.call op).Does s (R.effect s.value op) (R.permitted s.value op) := by
  cases op with
  | poke op => exact R.pokeCall_does s op
  | listLike len op => exact R.listLikeCall_does s len op

end Runtime

end Facet.Poke
