import Facet.Poke.Calls

/-!
# Fields of types that are not plain old data

A struct, a tuple or an enum that is not marked as plain old data may declare invariants
that tie its fields together, so its fields should change only when it is replaced as a
whole. The setters of fields ask for the mark. A `Poke` on a field does not remember where
it came from, and its own operations ask for nothing.
-/

namespace Facet.Poke

variable {ι : Type}

/-- A struct, a tuple or an enum that is not marked as plain old data. An option is a
container, although it is an enum as well. -/
def Guarded (shape : Shape ι) : Prop :=
  shape.isPod = false ∧ ¬ ByDefOnly shape ∧ ∀ t, shape.def ≠ .option t

/-- Changed through the functions of its table. -/
def IsContainer (shape : Shape ι) : Prop :=
  match shape.def with
  | .option _ | .result _ _ | .list _ | .array _ _ | .slice _ | .map _ _ | .set _ | .ndArray _
  | .dynamicValue => True
  | _ => False

namespace Runtime

variable {R : Runtime ι}

/-- Invariants that containers do not have, nor types that are marked: the derive macro takes
no type that is both marked and has invariants. -/
def Declared (R : Runtime ι) (inv : Value ι → Prop) : Prop :=
  ∀ v : Value ι, ¬ Guarded (R.shapes v.shape) →
    v.children ≠ [] ∨ IsContainer (R.shapes v.shape) → inv v

theorem not_guarded_of_isContainer {t : ι} (h : IsContainer (R.shapes t)) :
    ¬ Guarded (R.shapes t) := by
  intro hguarded
  have hviews := R.viewsAgree t
  rw [IsContainer] at h
  rw [ViewsAgree] at hviews
  cases hdef : Shape.def (R.shapes t) with
  | option t' => exact hguarded.2.2 t' hdef
  | map k x =>
    rw [hdef] at hviews
    exact hguarded.2.1 hviews
  | result t' e =>
    rw [hdef] at hviews
    exact hguarded.2.1 hviews
  | array t' n =>
    rw [hdef] at hviews
    exact hguarded.2.1 hviews
  | list t' =>
    rw [hdef] at hviews
    exact hguarded.2.1 hviews
  | slice t' =>
    rw [hdef] at hviews
    exact hguarded.2.1 hviews
  | set t' =>
    rw [hdef] at hviews
    exact hguarded.2.1 hviews
  | ndArray t' =>
    rw [hdef] at hviews
    exact hguarded.2.1 hviews
  | dynamicValue =>
    rw [hdef] at hviews
    exact hguarded.2.1 hviews
  | undefined =>
    rw [hdef] at h
    exact h
  | scalar =>
    rw [hdef] at h
    exact h
  | pointer pointee =>
    rw [hdef] at h
    exact h

theorem not_guarded_of_isPod {shape : Shape ι} (h : shape.isPod = true) : ¬ Guarded shape := by
  intro hguarded
  rw [hguarded.1] at h
  cases h

/-- How the new value was made: it was given, or it is the old container with children that
it had or that were given. -/
def Made (R : Runtime ι) (old : Value ι) (args : List (Arg ι)) (x : Value ι) : Prop :=
  x ∈ argValues args ∨ x.shape = old.shape ∧ IsContainer (R.shapes old.shape) ∧
    ∀ c ∈ x.children, c ∈ old.children ∨ c ∈ argValues args

theorem Made.everywhere {inv : Value ι → Prop} (hinv : R.Declared inv) {old x : Value ι}
    {args : List (Arg ι)} (h : Made R old args x) (hold : PlacedTree.Everywhere inv old)
    (hargs : ∀ y ∈ args, PlacedTree.Everywhere inv y.value) : PlacedTree.Everywhere inv x := by
  have hgiven : ∀ y ∈ argValues args, PlacedTree.Everywhere inv y := by
    intro y hy
    obtain ⟨a, ha, rfl⟩ := List.mem_map.mp hy
    exact hargs a ha
  rcases h with hx | ⟨hshape, hcontainer, hchildren⟩
  · exact hgiven x hx
  · rw [← hshape] at hcontainer
    have hx : inv x := hinv x (not_guarded_of_isContainer hcontainer) (.inr hcontainer)
    refine PlacedTree.Everywhere.iff_children.mpr ⟨hx, fun c hc => ?_⟩
    rcases hchildren c hc with hc | hc
    · exact hold.child hc
    · exact hgiven c hc

section Effects

variable {v x : Value ι} {args : List (Arg ι)}

theorem made_pushing (hcontainer : IsContainer (R.shapes v.shape)) (hx : x ∈ argValues args) :
    Made R v args (Effect.pushing v x).value := by
  refine .inr ⟨rfl, hcontainer, fun c hc => ?_⟩
  rcases List.mem_append.mp hc with hc | hc
  · exact .inl hc
  · obtain rfl := List.mem_singleton.mp hc
    exact .inr hx

theorem made_self (hcontainer : IsContainer (R.shapes v.shape)) : Made R v args v :=
  .inr ⟨rfl, hcontainer, fun _ hc => .inl hc⟩

theorem made_popping (hcontainer : IsContainer (R.shapes v.shape)) :
    Made R v args (Effect.popping v).value := by
  rw [Effect.popping]
  cases hpop : v.pop with
  | none => exact made_self hcontainer
  | some popped =>
    obtain ⟨last, -, rfl⟩ := Option.map_eq_some_iff.mp hpop
    exact .inr ⟨rfl, hcontainer, fun c hc => .inl (List.dropLast_subset _ hc)⟩

theorem made_swapping (hcontainer : IsContainer (R.shapes v.shape)) (a b : ℕ) (e : Refusal ι) :
    Made R v args (Effect.swapping v a b e).value := by
  rw [Effect.swapping]
  cases hswap : v.swap a b with
  | none => exact made_self hcontainer
  | some w =>
    obtain ⟨hlabel, hmem⟩ := label_swap hswap
    exact .inr ⟨congrArg Label.shape hlabel, hcontainer, fun c hc => .inl (hmem c hc)⟩

theorem made_mapInsert (hcontainer : IsContainer (R.shapes v.shape))
    (eq : Value ι → Value ι → Bool) {k : Value ι} (hk : k ∈ argValues args)
    (hx : x ∈ argValues args) (answer : Answer ι) :
    Made R v args (Effect.inserting (v.mapInsert eq k x) answer).value := by
  refine .inr ⟨rfl, hcontainer, fun c hc => ?_⟩
  rcases mem_insertEntry hc with hc | rfl | rfl
  · exact .inl hc
  · exact .inr hk
  · exact .inr hx

theorem made_setInsert (hcontainer : IsContainer (R.shapes v.shape))
    (eq : Value ι → Value ι → Bool) (hx : x ∈ argValues args) (answer : Answer ι) :
    Made R v args (Effect.inserting (v.setInsert eq x) answer).value := by
  rw [Value.setInsert]
  by_cases hholds : v.holds eq x = true
  · rw [if_pos hholds]
    exact made_self hcontainer
  · rw [if_neg hholds]
    exact made_pushing hcontainer hx

theorem made_insertObjectEntry (hcontainer : IsContainer (R.shapes v.shape)) (keys : List String)
    (key : String) (hx : x ∈ argValues args) (answer : Answer ι) :
    Made R v args (Effect.inserting (v.insertObjectEntry keys key x) answer).value := by
  rw [Value.insertObjectEntry]
  cases hfind : keys.findIdx? fun k => decide (k = key) with
  | some index =>
    refine .inr ⟨rfl, hcontainer, fun c hc => ?_⟩
    rcases List.mem_or_eq_of_mem_set hc with hc | rfl
    · exact .inl hc
    · exact .inr hx
  | none =>
    refine .inr ⟨rfl, hcontainer, fun c hc => ?_⟩
    rcases List.mem_append.mp hc with hc | hc
    · exact .inl hc
    · obtain rfl := List.mem_singleton.mp hc
      exact .inr hx

theorem made_rebuilding (hcontainer : IsContainer (R.shapes v.shape)) (head : Head)
    {children : List (Value ι)} (hchildren : ∀ c ∈ children, c ∈ argValues args) :
    Made R v args (Effect.rebuilding v head children).value :=
  .inr ⟨rfl, hcontainer, fun c hc => .inr (hchildren c hc)⟩

end Effects

theorem isContainer_of_listLike {v : Value ι} {listDef : ListLikeDef ι}
    (hinto : R.intoListLike v = .ok listDef) : IsContainer (R.shapes v.shape) := by
  have hdef := intoListLike_ok hinto
  cases listDef <;> simp [IsContainer, hdef]

section Operations

variable [DecidableEq ι] {v old : Value ι} {q : Place}

theorem pokeEffect_made {op : PokeOp ι} (hcheck : (R.pokeCall op).check v = .ok q)
    (hold : PlacedTree.get? q v = some old) :
    Made R old (R.pokeCall op).args (R.pokeEffect old op).value := by
  have hself : q = [] → old = v := by
    rintro rfl
    exact (Option.some.inj hold).symm
  cases op with
  | set x => exact .inl (List.mem_singleton_self _)
  | structSetField index x => exact .inl (List.mem_singleton_self _)
  | structSetFieldByName name x => exact .inl (List.mem_singleton_self _)
  | tupleSetField index x => exact .inl (List.mem_singleton_self _)
  | enumSetField index x => exact .inl (List.mem_singleton_self _)
  | enumSetFieldByName name x => exact .inl (List.mem_singleton_self _)
  | setSome x =>
    obtain ⟨hq, hdef⟩ := setSome_ok hcheck
    rw [hself hq]
    exact made_rebuilding (by simp [IsContainer, hdef]) _ fun c hc => hc
  | setNone =>
    obtain ⟨hq, t, hdef⟩ := setNone_ok hcheck
    rw [hself hq]
    exact made_rebuilding (by simp [IsContainer, hdef]) _ fun c hc => hc
  | setOk x =>
    obtain ⟨hq, e, hdef⟩ := setOk_ok hcheck
    rw [hself hq]
    exact made_rebuilding (by simp [IsContainer, hdef]) _ fun c hc => hc
  | setErr x =>
    obtain ⟨hq, t, hdef⟩ := setErr_ok hcheck
    rw [hself hq]
    exact made_rebuilding (by simp [IsContainer, hdef]) _ fun c hc => hc
  | listPush x =>
    obtain ⟨hq, hdef⟩ := listPush_ok hcheck
    rw [hself hq]
    exact made_pushing (by simp [IsContainer, hdef]) (List.mem_singleton_self _)
  | listPop =>
    obtain ⟨hq, t, hdef⟩ := listPop_ok hcheck
    rw [hself hq]
    exact made_popping (by simp [IsContainer, hdef])
  | listSwap a b =>
    obtain ⟨hq, t, hdef⟩ := listSwap_ok hcheck
    rw [hself hq]
    exact made_swapping (by simp [IsContainer, hdef]) a b _
  | mapInsert k x =>
    obtain ⟨hq, hdef⟩ := mapInsert_ok hcheck
    rw [hself hq]
    exact made_mapInsert (by simp [IsContainer, hdef]) _ List.mem_cons_self
      (List.mem_cons_of_mem _ (List.mem_singleton_self _)) _
  | setInsert x =>
    obtain ⟨hq, hdef⟩ := setInsert_ok hcheck
    rw [hself hq]
    exact made_setInsert (by simp [IsContainer, hdef]) _ (List.mem_singleton_self _) _
  | dynSet setter =>
    rw [pokeCall, dynSetter_eq] at hcheck
    obtain ⟨hq, hdef⟩ := dynCheck_ok hcheck
    rw [hself hq]
    exact made_rebuilding (by simp [IsContainer, hdef]) _ (by simp)
  | setF64 bits =>
    obtain ⟨hq, hdef⟩ := dynCheck_ok hcheck
    rw [hself hq, pokeEffect]
    by_cases hbits : R.tables.representable v.shape bits = true
    · rw [if_pos hbits]
      exact made_rebuilding (by simp [IsContainer, hdef]) _ (by simp)
    · rw [if_neg hbits]
      exact .inr ⟨rfl, by simp [IsContainer, hdef], fun c hc => absurd hc List.not_mem_nil⟩
  | setBytes bytes =>
    obtain ⟨hq, hdef⟩ := setBytes_ok hcheck
    rw [hself hq]
    exact made_rebuilding (by simp [IsContainer, hdef]) _ (by simp)
  | pushArrayElement x =>
    obtain ⟨hq, hdef, -⟩ := dynInsertCheck_ok hcheck
    rw [hself hq]
    exact made_pushing (by simp [IsContainer, hdef]) (List.mem_singleton_self _)
  | insertObjectEntry key x =>
    obtain ⟨hq, hdef, -⟩ := dynInsertCheck_ok hcheck
    rw [hself hq]
    exact made_insertObjectEntry (by simp [IsContainer, hdef]) _ key
      (List.mem_singleton_self _) _
  | endArray =>
    obtain ⟨hq, hdef⟩ := dynCheck_ok hcheck
    rw [hself hq]
    exact made_self (by simp [IsContainer, hdef])
  | endObject =>
    obtain ⟨hq, hdef⟩ := dynCheck_ok hcheck
    rw [hself hq]
    exact made_self (by simp [IsContainer, hdef])

theorem listLikeEffect_made {len : ℕ} {op : ListLikeOp ι}
    (hcheck : (R.listLikeCall len op).check v = .ok q)
    (hold : PlacedTree.get? q v = some old) :
    Made R old (R.listLikeCall len op).args (listLikeEffect old op).value := by
  obtain rfl := listLikeCheck_place hcheck
  obtain rfl : v = old := Option.some.inj hold
  cases op with
  | push x =>
    obtain ⟨-, hdef⟩ := listLikePush_ok hcheck
    exact made_pushing (by simp [IsContainer, hdef]) (List.mem_singleton_self _)
  | pop =>
    obtain ⟨-, t, hdef⟩ := listLikePop_ok hcheck
    exact made_popping (by simp [IsContainer, hdef])
  | swap a b =>
    obtain ⟨-, -, listDef, hinto⟩ := listLikeSwap_ok hcheck
    rw [listLikeEffect]
    by_cases hab : a = b
    · rw [if_pos hab]
      exact made_self (isContainer_of_listLike hinto)
    · rw [if_neg hab]
      exact made_swapping (isContainer_of_listLike hinto) a b _

theorem effect_made {op : Op ι} (hcheck : (R.call op).check v = .ok q)
    (hold : PlacedTree.get? q v = some old) :
    Made R old (R.call op).args (R.effect old op).value := by
  cases op with
  | poke op => exact pokeEffect_made hcheck hold
  | listLike len op => exact listLikeEffect_made hcheck hold

end Operations

end Runtime

end Facet.Poke
