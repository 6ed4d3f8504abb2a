import Facet.Poke.Checks
import Facet.Poke.Conservation

/-!
# Operations keep values sound

When the checks of an operation pass, the place it answers is there, and its effect on a
sound value is a sound value of the same shape.
-/

namespace Facet.Poke

variable {ι : Type}

namespace Runtime

variable {R : Runtime ι}

/-- The new value is sound and of the old value's shape. -/
structure Keeps (R : Runtime ι) (old : Value ι) (e : Effect ι) : Prop where
  shape : e.value.shape = old.shape
  sound : R.Sound e.value

section Effects

variable {v x : Value ι}

theorem keeps_replacing (hshape : x.shape = v.shape) (hx : R.Sound x) :
    Keeps R v (.replacing v x) := ⟨hshape, hx⟩

theorem keeps_rebuilding {head : Head} {children : List (Value ι)}
    (hfits : R.Fits (.node ⟨v.shape, head, none⟩ children))
    (hchildren : ∀ c ∈ children, R.Sound c) : Keeps R v (.rebuilding v head children) :=
  ⟨rfl, sound_node.mpr ⟨hfits, hchildren⟩⟩

theorem Sound.fits (hv : R.Sound v) : R.Fits v := PlacedTree.Everywhere.self hv

theorem Sound.child (hv : R.Sound v) {c : Value ι} (hc : c ∈ v.children) : R.Sound c :=
  PlacedTree.Everywhere.child hv hc

theorem Sound.withChildren (hv : R.Sound v) {children : List (Value ι)}
    (hdef : R.DefFits (v.withChildren children)) (hby : ByDefOnly (R.shapes v.shape))
    (hchildren : ∀ c ∈ children, R.Sound c) : R.Sound (v.withChildren children) := by
  apply sound_node.mpr
  refine ⟨⟨hv.fits.initialised, hdef, tyFits_of_byDefOnly hby⟩, hchildren⟩

theorem byDefOnly_of_list {t : ι} (hdef : Shape.def (R.shapes v.shape) = .list t) :
    ByDefOnly (R.shapes v.shape) := by
  have hviews := R.viewsAgree v.shape
  rwa [ViewsAgree, hdef] at hviews

theorem Sound.withElements (hv : R.Sound v) {t : ι} (hdef : Shape.def (R.shapes v.shape) = .list t)
    {children : List (Value ι)} (hchildren : ∀ c ∈ children, R.Sound c ∧ c.shape = t) :
    R.Sound (v.withChildren children) := by
  have hfits := hv.fits.byDef
  rw [DefFits, hdef] at hfits
  apply hv.withChildren _ (byDefOnly_of_list hdef) fun c hc => (hchildren c hc).1
  have hdef' : Shape.def (R.shapes (v.withChildren children).shape) = .list t := hdef
  rw [DefFits, hdef']
  refine ⟨hfits.1, fun t' ht' => ?_⟩
  obtain ⟨c, hc, rfl⟩ := List.mem_map.mp ht'
  exact (hchildren c hc).2

theorem Sound.element (hv : R.Sound v) {t : ι} (hdef : Shape.def (R.shapes v.shape) = .list t)
    {c : Value ι} (hc : c ∈ v.children) : R.Sound c ∧ c.shape = t := by
  have hfits := hv.fits.byDef
  rw [DefFits, hdef] at hfits
  exact ⟨hv.child hc, hfits.2 _ (List.mem_map_of_mem hc)⟩

theorem keeps_pushing_list (hv : R.Sound v) {t : ι} (hdef : Shape.def (R.shapes v.shape) = .list t)
    (hx : R.Sound x) (hshape : x.shape = t) : Keeps R v (.pushing v x) := by
  refine ⟨rfl, hv.withElements hdef fun c hc => ?_⟩
  rcases List.mem_append.mp hc with hc | hc
  · exact hv.element hdef hc
  · obtain rfl := List.mem_singleton.mp hc
    exact ⟨hx, hshape⟩

theorem keeps_popping (hv : R.Sound v) {t : ι} (hdef : Shape.def (R.shapes v.shape) = .list t) :
    Keeps R v (.popping v) := by
  rw [Effect.popping]
  cases hpop : v.pop with
  | none => exact ⟨rfl, hv⟩
  | some popped =>
    obtain ⟨last, -, rfl⟩ := Option.map_eq_some_iff.mp hpop
    refine ⟨rfl, hv.withElements hdef fun c hc => ?_⟩
    exact hv.element hdef (List.dropLast_subset _ hc)

theorem label_swap {w : Value ι} {a b : ℕ} (h : v.swap a b = some w) :
    w.label = v.label ∧ ∀ c ∈ w.children, c ∈ v.children := by
  rw [Value.swap] at h
  cases ha : v.children[a]? with
  | none => simp [ha] at h
  | some x =>
    cases hb : v.children[b]? with
    | none => simp [ha, hb] at h
    | some y =>
      obtain rfl : v.withChildren ((v.children.set a y).set b x) = w := by simpa [ha, hb] using h
      refine ⟨rfl, fun c hc => ?_⟩
      rcases List.mem_or_eq_of_mem_set hc with hc | rfl
      · rcases List.mem_or_eq_of_mem_set hc with hc | rfl
        · exact hc
        · exact List.mem_of_getElem? hb
      · exact List.mem_of_getElem? ha

theorem length_swap {w : Value ι} {a b : ℕ} (h : v.swap a b = some w) :
    w.children.length = v.children.length := by
  rw [Value.swap] at h
  cases ha : v.children[a]? with
  | none => simp [ha] at h
  | some x =>
    cases hb : v.children[b]? with
    | none => simp [ha, hb] at h
    | some y =>
      obtain rfl : v.withChildren ((v.children.set a y).set b x) = w := by simpa [ha, hb] using h
      simp [Value.withChildren]

/-- Swapping keeps the shapes below when they are all the same. -/
theorem childShapes_swap {w : Value ι} {a b : ℕ} (h : v.swap a b = some w) {t : ι}
    (hall : ∀ t' ∈ v.childShapes, t' = t) : w.childShapes = v.childShapes := by
  obtain ⟨-, hmem⟩ := label_swap h
  have hreplicate : ∀ u : Value ι, (∀ c ∈ u.children, c ∈ v.children) →
      u.childShapes = List.replicate u.children.length t := by
    intro u hu
    apply List.eq_replicate_iff.mpr
    refine ⟨List.length_map _, fun t' ht' => ?_⟩
    obtain ⟨c, hc, rfl⟩ := List.mem_map.mp ht'
    exact hall _ (List.mem_map_of_mem (hu c hc))
  rw [hreplicate w hmem, hreplicate v fun _ hc => hc, length_swap h]

theorem keeps_swapping (hv : R.Sound v) (a b : ℕ) (e : Refusal ι) {t : ι}
    (hall : ∀ t' ∈ v.childShapes, t' = t) : Keeps R v (.swapping v a b e) := by
  rw [Effect.swapping]
  cases hswap : v.swap a b with
  | none => exact ⟨rfl, hv⟩
  | some w =>
    obtain ⟨hlabel, hmem⟩ := label_swap hswap
    have hshapes := childShapes_swap hswap hall
    exact ⟨congrArg Label.shape hlabel,
      sound_iff.mpr ⟨hv.fits.congr hlabel hshapes, fun c hc => hv.child (hmem c hc)⟩⟩

theorem mem_insertEntry {eq : Value ι → Value ι → Bool} {k x : Value ι}
    {entries : List (Value ι)} {c : Value ι} (hc : c ∈ (Value.insertEntry eq k x entries).1) :
    c ∈ entries ∨ c = k ∨ c = x := by
  fun_induction Value.insertEntry eq k x entries with
  | case1 key old rest _ =>
    simp only [List.mem_cons] at hc ⊢
    tauto
  | case2 key old rest _ rest' dropped hrest ih =>
    rw [hrest] at ih
    simp only [List.mem_cons] at hc ih ⊢
    tauto
  | case3 rest _ =>
    simp only [List.mem_append, List.mem_cons, List.not_mem_nil, or_false] at hc
    tauto

theorem keeps_mapInsert (hv : R.Sound v) {kShape vShape : ι}
    (hdef : Shape.def (R.shapes v.shape) = .map kShape vShape) (eq : Value ι → Value ι → Bool)
    {k : Value ι} (hk : R.Sound k) (hx : R.Sound x) (answer : Answer ι) :
    Keeps R v (.inserting (v.mapInsert eq k x) answer) := by
  have hviews := R.viewsAgree v.shape
  rw [ViewsAgree, hdef] at hviews
  have hfits := hv.fits.byDef
  rw [DefFits, hdef] at hfits
  refine ⟨rfl, ?_⟩
  apply hv.withChildren _ hviews
  · intro c hc
    rcases mem_insertEntry hc with hc | rfl | rfl
    · exact hv.child hc
    · exact hk
    · exact hx
  · have hdef' : Shape.def (R.shapes (v.withChildren (Value.insertEntry eq k x v.children).1).shape) =
        .map kShape vShape := hdef
    rw [DefFits, hdef']
    exact hfits

theorem keeps_setInsert (hv : R.Sound v) {t : ι} (hdef : Shape.def (R.shapes v.shape) = .set t)
    (eq : Value ι → Value ι → Bool) (hx : R.Sound x) (hshape : x.shape = t)
    (answer : Answer ι) : Keeps R v (.inserting (v.setInsert eq x) answer) := by
  have hviews := R.viewsAgree v.shape
  rw [ViewsAgree, hdef] at hviews
  have hfits := hv.fits.byDef
  rw [DefFits, hdef] at hfits
  rw [Value.setInsert]
  by_cases hholds : v.holds eq x = true
  · rw [if_pos hholds]
    exact ⟨rfl, hv⟩
  · rw [if_neg hholds]
    refine ⟨rfl, ?_⟩
    apply hv.withChildren _ hviews
    · intro c hc
      rcases List.mem_append.mp hc with hc | hc
      · exact hv.child hc
      · obtain rfl := List.mem_singleton.mp hc
        exact hx
    · have hdef' : Shape.def (R.shapes (v.push x).shape) = .set t := hdef
      rw [← Value.push, DefFits, hdef']
      refine ⟨hfits.1, fun t' ht' => ?_⟩
      obtain ⟨c, hc, rfl⟩ := List.mem_map.mp ht'
      rcases List.mem_append.mp hc with hc | hc
      · exact hfits.2 _ (List.mem_map_of_mem hc)
      · obtain rfl := List.mem_singleton.mp hc
        exact hshape

theorem keeps_dynWrite (hdef : Shape.def (R.shapes v.shape) = .dynamicValue) {content : DynContent}
    (hkeys : Value.keys (.node ⟨v.shape, .dynamic content, none⟩ []) = []) :
    Keeps R v (.rebuilding v (.dynamic content) []) := by
  let new : Value ι := .node ⟨v.shape, .dynamic content, none⟩ []
  have hhead : new.head = .dynamic content := rfl
  have hchildren : ∀ t ∈ new.childShapes, t = new.shape :=
    fun t ht => absurd ht List.not_mem_nil
  have hlength : new.keys.length ≤ new.childShapes.length := by
    rw [hkeys]
    exact le_refl 0
  have hfits : R.Fits new := fits_dynamic hdef hhead hchildren hlength
  exact keeps_rebuilding hfits fun c hc => absurd hc List.not_mem_nil

theorem Sound.dynAppend (hv : R.Sound v) (hdef : Shape.def (R.shapes v.shape) = .dynamicValue)
    (hx : R.Sound x) (hshape : x.shape = v.shape) {label : Label ι}
    (hlabel : label.shape = v.shape) {content : DynContent} (hhead : label.head = .dynamic content)
    (hkeys : (Value.keys (.node label (v.children ++ [x]))).length ≤ v.children.length + 1) :
    R.Sound (.node label (v.children ++ [x])) := by
  have hfits := hv.fits.byDef
  rw [DefFits, hdef] at hfits
  let new : Value ι := .node label (v.children ++ [x])
  have hdef' : Shape.def (R.shapes new.shape) = .dynamicValue := by
    change Shape.def (R.shapes label.shape) = _
    rw [hlabel, hdef]
  have hhead' : new.head = .dynamic content := hhead
  have hchildren : ∀ t ∈ new.childShapes, t = new.shape := by
    intro t ht
    obtain ⟨c, hc, rfl⟩ := List.mem_map.mp ht
    refine Eq.trans ?_ hlabel.symm
    rcases List.mem_append.mp hc with hc | hc
    · exact hfits.2.1 _ (List.mem_map_of_mem hc)
    · obtain rfl := List.mem_singleton.mp hc
      exact hshape
  have hlength : new.keys.length ≤ new.childShapes.length := by
    simpa [Value.childShapes, new] using hkeys
  apply sound_node.mpr
  constructor
  · exact fits_dynamic hdef' hhead' hchildren hlength
  · intro c hc
    rcases List.mem_append.mp hc with hc | hc
    · exact hv.child hc
    · obtain rfl := List.mem_singleton.mp hc
      exact hx

theorem keeps_pushing_array (hv : R.Sound v) (hdef : Shape.def (R.shapes v.shape) = .dynamicValue)
    (hx : R.Sound x) (hshape : x.shape = v.shape) : Keeps R v (.pushing v x) := by
  have hfits := hv.fits.byDef
  rw [DefFits, hdef] at hfits
  obtain ⟨⟨content, hhead⟩, -, hkeys⟩ := hfits
  refine ⟨rfl, hv.dynAppend hdef hx hshape rfl hhead ?_⟩
  have hsame : Value.keys (.node v.label (v.children ++ [x])) = v.keys := keys_eq_of_label rfl
  rw [hsame]
  exact le_trans (by simpa [Value.childShapes] using hkeys) (Nat.le_succ _)

theorem keeps_insertObjectEntry (hv : R.Sound v)
    (hdef : Shape.def (R.shapes v.shape) = .dynamicValue) (hx : R.Sound x)
    (hshape : x.shape = v.shape) (key : String) (answer : Answer ι) :
    Keeps R v (.inserting (v.insertObjectEntry v.keys key x) answer) := by
  have hviews := R.viewsAgree v.shape
  rw [ViewsAgree, hdef] at hviews
  have hfits := hv.fits.byDef
  rw [DefFits, hdef] at hfits
  obtain ⟨hhead, hsame, hkeys⟩ := hfits
  rw [Value.childShapes, List.length_map] at hkeys
  rw [Value.insertObjectEntry]
  cases hfind : v.keys.findIdx? fun k => decide (k = key) with
  | some index =>
    refine ⟨rfl, ?_⟩
    have hmem : ∀ c ∈ v.children.set index x, R.Sound c ∧ Value.shape c = v.shape := by
      intro c hc
      rcases List.mem_or_eq_of_mem_set hc with hc | rfl
      · exact ⟨hv.child hc, hsame _ (List.mem_map_of_mem hc)⟩
      · exact ⟨hx, hshape⟩
    apply hv.withChildren _ hviews fun c hc => (hmem c hc).1
    have hdef' : Shape.def (R.shapes (v.withChildren (v.children.set index x)).shape) =
        .dynamicValue := hdef
    rw [DefFits, hdef']
    refine ⟨hhead, ?_, ?_⟩
    · intro t ht
      obtain ⟨c, hc, rfl⟩ := List.mem_map.mp ht
      exact (hmem c hc).2
    · have hkeep : Value.keys (v.withChildren (v.children.set index x)) = v.keys :=
        keys_eq_of_label rfl
      rw [hkeep, Value.childShapes, Value.withChildren]
      simpa using hkeys
  | none =>
    refine ⟨rfl, hv.dynAppend hdef hx hshape rfl rfl ?_⟩
    simpa [Value.keys, Value.head] using hkeys

end Effects

/-- The float of `set_f64` is one that the type can hold. -/
def floatHeld (R : Runtime ι) (v : Value ι) : PokeOp ι → Prop
  | .setF64 bits => R.tables.representable v.shape bits = true
  | _ => True

section Operations

variable {v : Value ι} {q : Place}

/-- The new value goes to a place that is there, with a value of its shape. -/
def Lands (R : Runtime ι) (v : Value ι) (q : Place) (effect : Value ι → Effect ι) : Prop :=
  ∃ old, PlacedTree.get? q v = some old ∧ Keeps R old (effect old)

theorem lands_field (hv : R.Sound v) {x : Value ι} (hx : R.Sound x)
    (htarget : FieldTarget R v x q) : Lands R v q fun old => .replacing old x := by
  obtain ⟨old, hold, hshape⟩ := htarget.exists_get? hv.fits
  exact ⟨old, hold, keeps_replacing hshape hx⟩

theorem lands_self {effect : Value ι → Effect ι} (hq : q = []) (h : Keeps R v (effect v)) :
    Lands R v q effect := by
  subst hq
  exact ⟨v, rfl, h⟩

variable [DecidableEq ι]

/-- An operation changes the value it is called on, or a field of plain old data. -/
theorem pokeCheck_place {op : PokeOp ι} (h : (R.pokeCall op).check v = .ok q) :
    q = [] ∨ ((R.shapes v.shape).isPod = true ∧ ∃ i, q = [i]) ∧
      ∀ w, R.pokePermitted w op ∧ R.floatHeld w op := by
  cases op with
  | structSetField index x =>
    exact .inr ⟨(structSetField_ok h).place, fun _ => ⟨trivial, trivial⟩⟩
  | structSetFieldByName name x =>
    exact .inr ⟨(structSetFieldByName_ok h).place, fun _ => ⟨trivial, trivial⟩⟩
  | tupleSetField index x =>
    exact .inr ⟨(tupleSetField_ok h).place, fun _ => ⟨trivial, trivial⟩⟩
  | enumSetField index x =>
    exact .inr ⟨(enumSetField_ok h).place, fun _ => ⟨trivial, trivial⟩⟩
  | enumSetFieldByName name x =>
    exact .inr ⟨(enumSetFieldByName_ok h).place, fun _ => ⟨trivial, trivial⟩⟩
  | set x => exact .inl (set_ok h).1
  | setSome x => exact .inl (setSome_ok h).1
  | setNone => exact .inl (setNone_ok h).1
  | setOk x => exact .inl (setOk_ok h).1
  | setErr x => exact .inl (setErr_ok h).1
  | listPush x => exact .inl (listPush_ok h).1
  | listPop => exact .inl (listPop_ok h).1
  | listSwap a b => exact .inl (listSwap_ok h).1
  | mapInsert k x => exact .inl (mapInsert_ok h).1
  | setInsert x => exact .inl (setInsert_ok h).1
  | dynSet setter =>
    rw [pokeCall, dynSetter_eq] at h
    exact .inl (dynCheck_ok h).1
  | setF64 bits => exact .inl (dynCheck_ok h).1
  | setBytes bytes => exact .inl (setBytes_ok h).1
  | pushArrayElement x => exact .inl (dynInsertCheck_ok h).1
  | insertObjectEntry key x => exact .inl (dynInsertCheck_ok h).1
  | endArray => exact .inl (dynCheck_ok h).1
  | endObject => exact .inl (dynCheck_ok h).1

theorem listLikeCheck_place {len : ℕ} {op : ListLikeOp ι}
    (h : (R.listLikeCall len op).check v = .ok q) : q = [] := by
  cases op with
  | push x => exact (listLikePush_ok h).1
  | pop => exact (listLikePop_ok h).1
  | swap a b => exact (listLikeSwap_ok h).1

theorem pokeCall_lands (hv : R.Sound v) (op : PokeOp ι)
    (hcheck : (R.pokeCall op).check v = .ok q)
    (hargs : ∀ x ∈ (R.pokeCall op).args, R.Sound x.value) (hfloat : R.floatHeld v op) :
    Lands R v q fun old => R.pokeEffect old op := by
  cases op with
  | set x =>
    obtain ⟨hq, hshape⟩ := set_ok hcheck
    have hx : R.Sound x := hargs _ (List.mem_singleton_self _)
    exact lands_self hq (keeps_replacing hshape hx)
  | structSetField index x =>
    exact lands_field hv (hargs _ (List.mem_singleton_self _)) (structSetField_ok hcheck)
  | structSetFieldByName name x =>
    exact lands_field hv (hargs _ (List.mem_singleton_self _)) (structSetFieldByName_ok hcheck)
  | tupleSetField index x =>
    exact lands_field hv (hargs _ (List.mem_singleton_self _)) (tupleSetField_ok hcheck)
  | enumSetField index x =>
    exact lands_field hv (hargs _ (List.mem_singleton_self _)) (enumSetField_ok hcheck)
  | enumSetFieldByName name x =>
    exact lands_field hv (hargs _ (List.mem_singleton_self _)) (enumSetFieldByName_ok hcheck)
  | setSome x =>
    obtain ⟨hq, hdef⟩ := setSome_ok hcheck
    have hx : R.Sound x.value := hargs _ (List.mem_singleton_self _)
    have hfits : R.Fits (.node ⟨v.shape, .some, none⟩ [x.value]) :=
      fits_option hdef (.inr ⟨rfl, rfl⟩)
    exact lands_self hq (keeps_rebuilding hfits (by simpa using hx))
  | setNone =>
    obtain ⟨hq, t, hdef⟩ := setNone_ok hcheck
    have hfits : R.Fits (.node ⟨v.shape, .none, none⟩ []) :=
      fits_option hdef (.inl ⟨rfl, rfl⟩)
    exact lands_self hq (keeps_rebuilding hfits (by simp))
  | setOk x =>
    obtain ⟨hq, e, hdef⟩ := setOk_ok hcheck
    have hx : R.Sound x.value := hargs _ (List.mem_singleton_self _)
    have hfits : R.Fits (.node ⟨v.shape, .ok, none⟩ [x.value]) :=
      fits_result hdef (.inl ⟨rfl, rfl⟩)
    exact lands_self hq (keeps_rebuilding hfits (by simpa using hx))
  | setErr x =>
    obtain ⟨hq, t, hdef⟩ := setErr_ok hcheck
    have hx : R.Sound x.value := hargs _ (List.mem_singleton_self _)
    have hfits : R.Fits (.node ⟨v.shape, .err, none⟩ [x.value]) :=
      fits_result hdef (.inr ⟨rfl, rfl⟩)
    exact lands_self hq (keeps_rebuilding hfits (by simpa using hx))
  | listPush x =>
    obtain ⟨hq, hdef⟩ := listPush_ok hcheck
    have hx : R.Sound x.value := hargs _ (List.mem_singleton_self _)
    exact lands_self hq (keeps_pushing_list hv hdef hx rfl)
  | listPop =>
    obtain ⟨hq, t, hdef⟩ := listPop_ok hcheck
    exact lands_self hq (keeps_popping hv hdef)
  | listSwap a b =>
    obtain ⟨hq, t, hdef⟩ := listSwap_ok hcheck
    have hfits := hv.fits.byDef
    rw [DefFits, hdef] at hfits
    exact lands_self hq (keeps_swapping hv a b _ hfits.2)
  | mapInsert k x =>
    obtain ⟨hq, hdef⟩ := mapInsert_ok hcheck
    have hk : R.Sound k.value := hargs _ List.mem_cons_self
    have hx : R.Sound x.value := hargs _ (List.mem_cons_of_mem _ (List.mem_singleton_self _))
    exact lands_self hq (keeps_mapInsert hv hdef _ hk hx _)
  | setInsert x =>
    obtain ⟨hq, hdef⟩ := setInsert_ok hcheck
    have hx : R.Sound x.value := hargs _ (List.mem_singleton_self _)
    exact lands_self hq (keeps_setInsert hv hdef _ hx rfl _)
  | dynSet setter =>
    rw [pokeCall, dynSetter_eq] at hcheck
    obtain ⟨hq, hdef⟩ := dynCheck_ok hcheck
    apply lands_self hq
    apply keeps_dynWrite hdef
    cases setter <;> rfl
  | setF64 bits =>
    obtain ⟨hq, hdef⟩ := dynCheck_ok hcheck
    apply lands_self hq
    have hbits : R.tables.representable v.shape bits = true := hfloat
    rw [pokeEffect, if_pos hbits]
    exact keeps_dynWrite hdef rfl
  | setBytes bytes =>
    obtain ⟨hq, hdef⟩ := setBytes_ok hcheck
    exact lands_self hq (keeps_dynWrite hdef rfl)
  | pushArrayElement x =>
    obtain ⟨hq, hdef, hshape⟩ := dynInsertCheck_ok hcheck
    have hx : R.Sound x.value := hargs _ (List.mem_singleton_self _)
    exact lands_self hq (keeps_pushing_array hv hdef hx hshape)
  | insertObjectEntry key x =>
    obtain ⟨hq, hdef, hshape⟩ := dynInsertCheck_ok hcheck
    have hx : R.Sound x.value := hargs _ (List.mem_singleton_self _)
    exact lands_self hq (keeps_insertObjectEntry hv hdef hx hshape key _)
  | endArray => exact lands_self (dynCheck_ok hcheck).1 ⟨rfl, hv⟩
  | endObject => exact lands_self (dynCheck_ok hcheck).1 ⟨rfl, hv⟩

omit [DecidableEq ι] in
theorem childShapes_listLike (hv : R.Fits v) {listDef : ListLikeDef ι}
    (hinto : R.intoListLike v = .ok listDef) : ∀ t ∈ v.childShapes, t = listDef.t := by
  have hfits := hv.byDef
  have hdef := intoListLike_ok hinto
  cases listDef with
  | list t =>
    rw [DefFits, hdef] at hfits
    exact hfits.2
  | array t n =>
    rw [DefFits, hdef] at hfits
    rw [hfits.2]
    exact fun t' ht' => List.eq_of_mem_replicate ht'
  | slice t =>
    rw [DefFits, hdef] at hfits
    exact hfits.2

theorem listLikeCall_lands (hv : R.Sound v) {len : ℕ} (op : ListLikeOp ι)
    (hcheck : (R.listLikeCall len op).check v = .ok q)
    (hargs : ∀ x ∈ (R.listLikeCall len op).args, R.Sound x.value) :
    Lands R v q fun old => listLikeEffect old op := by
  cases op with
  | push x =>
    obtain ⟨hq, hdef⟩ := listLikePush_ok hcheck
    have hx : R.Sound x.value := hargs _ (List.mem_singleton_self _)
    exact lands_self hq (keeps_pushing_list hv hdef hx rfl)
  | pop =>
    obtain ⟨hq, t, hdef⟩ := listLikePop_ok hcheck
    exact lands_self hq (keeps_popping hv hdef)
  | swap a b =>
    obtain ⟨hq, -, listDef, hinto⟩ := listLikeSwap_ok hcheck
    apply lands_self hq
    dsimp only [listLikeEffect]
    by_cases hab : a = b
    · rw [if_pos hab]
      exact ⟨rfl, hv⟩
    · rw [if_neg hab]
      exact keeps_swapping hv a b _ (childShapes_listLike hv.fits hinto)

omit [DecidableEq ι] in
theorem listLikeSwap_permitted {len a b : ℕ} (hlen : len = v.children.length)
    (hcheck : (R.listLikeSwap len a b).check v = .ok q) :
    R.listLikePermitted v (.swap a b) := by
  obtain ⟨-, hbounds, -⟩ := listLikeSwap_ok hcheck
  rw [hlen] at hbounds
  exact .inr (.inr hbounds)

end Operations

section Answers

variable {v : Value ι}

theorem popping_unchanged {e : Refusal ι} (h : (Effect.popping v).answer = .error e) :
    (Effect.popping v).value = v := by
  rw [Effect.popping] at h ⊢
  cases hpop : v.pop with
  | none => rfl
  | some popped =>
    rw [hpop] at h
    cases h

theorem swapping_unchanged {a b : ℕ} {e e' : Refusal ι}
    (h : (Effect.swapping v a b e').answer = .error e) :
    (Effect.swapping v a b e').value = v := by
  rw [Effect.swapping] at h ⊢
  cases hswap : v.swap a b with
  | none => rfl
  | some w =>
    rw [hswap] at h
    cases h

/-- A refusal that comes after the checks leaves the value. -/
theorem effect_unchanged {op : Op ι} {e : Refusal ι}
    (hfloat : ∀ pokeOp, op = .poke pokeOp → R.floatHeld v pokeOp)
    (h : (R.effect v op).answer = .error e) : (R.effect v op).value = v := by
  cases op with
  | poke op =>
    have hfloat := hfloat op rfl
    cases op with
    | listPop => exact popping_unchanged h
    | listSwap a b => exact swapping_unchanged h
    | setInsert x =>
      change (v.setInsert _ _).1 = v
      rw [Value.setInsert]
      by_cases hholds : v.holds (R.tables.keyEq v.shape) x.value = true
      · rw [if_pos hholds]
      · simp [effect, pokeEffect, Effect.inserting, hholds] at h
    | setF64 bits =>
      have hbits : R.tables.representable v.shape bits = true := hfloat
      rw [effect, pokeEffect, if_pos hbits] at h
      cases h
    | endArray => rfl
    | endObject => rfl
    | _ => cases h
  | listLike len op =>
    cases op with
    | push x => cases h
    | pop => exact popping_unchanged h
    | swap a b =>
      rw [effect, listLikeEffect] at h ⊢
      by_cases hab : a = b
      · rw [if_pos hab]
      · rw [if_neg hab] at h ⊢
        exact swapping_unchanged h

end Answers

end Runtime

/-- The cached length after an operation that answered. -/
def ListLikeOp.cachedAfter (len : ℕ) : ListLikeOp ι → Answer ι → ℕ
  | .push _, .ok _ => len + 1
  | .pop, .ok _ => len - 1
  | _, _ => len

theorem length_listLikeEffect (v : Value ι) (op : ListLikeOp ι) :
    (Runtime.listLikeEffect v op).value.children.length =
      op.cachedAfter v.children.length (Runtime.listLikeEffect v op).answer := by
  cases op with
  | push x => simp [Runtime.listLikeEffect, Effect.pushing, Value.push, Value.withChildren,
      ListLikeOp.cachedAfter]
  | pop =>
    rw [Runtime.listLikeEffect, Effect.popping]
    cases hpop : v.pop with
    | none => rfl
    | some popped =>
      obtain ⟨last, -, rfl⟩ := Option.map_eq_some_iff.mp hpop
      simp [Value.withChildren, ListLikeOp.cachedAfter]
  | swap a b =>
    rw [Runtime.listLikeEffect]
    by_cases hab : a = b
    · rw [if_pos hab]
      rfl
    · rw [if_neg hab, Effect.swapping]
      cases hswap : v.swap a b with
      | none => rfl
      | some w => exact Runtime.length_swap hswap

end Facet.Poke
