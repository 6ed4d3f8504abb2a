import Facet.Dynamic.Frames

/-!
# Operations on the frame on top

The conditions under which an operation keeps to the contracts, and what it then does to the
contents of the frame on top.
-/

namespace Facet.Dynamic

open GuardedRun

variable {S V F : Type}

namespace Frame

section Conditions

variable (D : DynamicType S V F) (f : Frame V)

/-- An initialised value of unknown kind is an array, and a borrowed value is not replaced. -/
def InitListPermitted : Prop :=
  match f.tracker with
  | .scalar => f.isInit = true → ∃ v, f.data = some v ∧ (D.view v).isArray = true
  | .dynamicValue (.array _ _) => True
  | .dynamicValue _ => f.ownership.isBorrowed = false

/-- A borrowed value is not replaced. -/
def InitMapPermitted : Prop :=
  match f.tracker with
  | .scalar => f.ownership.isBorrowed = true →
      ∃ v, f.data = some v ∧ (D.view v).isObject = true
  | .dynamicValue (.object _ _) => True
  | .dynamicValue _ => f.ownership.isBorrowed = false

/-- A borrowed value is only replaced by a value of its own type. -/
def SetPermitted (src : Source V F) : Prop := f.ownership.isBorrowed = true → src.IsSame

/-- A key the object holds can be entered again. -/
def EntryPermitted (key : String) : Prop :=
  D.vtable.objectGetMut = none →
    ∀ v es, f.data = some v → D.view v = .object es → es key = none

end Conditions

variable {D : DynamicType S V F} {f : Frame V} {x : Option (Json S)}

/-- A frame after an operation on it: it keeps its ownership, and nothing new is pending. -/
structure Follows (f g : Frame V) : Prop where
  ownership : g.ownership = f.ownership
  pendingElements : f.pendingElements = [] → g.pendingElements = []
  pendingEntries : f.pendingEntries = [] → g.pendingEntries = []

theorem Follows.refl (f : Frame V) : f.Follows f := ⟨rfl, id, id⟩

theorem deinitForReplace_of_owned (hf : f.Sound D) (h : f.ownership.isBorrowed = false) :
    f.deinitForReplace D = .new f.ownership := by
  have hinit := hf.init
  obtain ⟨data, isInit, tracker, ownership⟩ := f
  cases ownership with
  | borrowedInPlace slot => cases h
  | owned =>
    cases data <;> simp_all [deinitForReplace, deinit, Frame.new]
  | field idx =>
    cases data <;> simp_all [deinitForReplace, deinit, Frame.new]

theorem deinitForReplace_of_borrowed (hf : f.Sound D) (h : f.ownership.isBorrowed = true) :
    f.deinitForReplace D =
      { f with data := some D.vtable.setNull, tracker := .dynamicValue .scalar } := by
  have hinit := hf.borrowed h
  obtain ⟨data, isInit, tracker, ownership⟩ := f
  cases ownership with
  | borrowedInPlace slot =>
    obtain rfl : isInit = true := hinit
    rfl
  | owned => cases h
  | field idx => cases h

theorem eq_new (hf : f.Sound D) (htracker : f.tracker = .scalar) (hinit : f.isInit = false) :
    f = .new f.ownership := by
  have hdata := hf.init.symm.trans hinit
  obtain ⟨data, isInit, tracker, ownership⟩ := f
  cases data with
  | none =>
    cases htracker
    cases hinit
    rfl
  | some v => cases hdata

theorem ready_array {v : V} {xs : List (Json S)} (hview : D.view v = .array xs)
    (ownership : FrameOwnership) :
    (⟨some v, true, .dynamicValue (.array false []), ownership⟩ : Frame V).Ready D
      (some (.array xs)) where
  sound := ⟨rfl, ⟨v, xs, rfl, hview⟩, fun _ => rfl, nofun⟩
  resting := rfl
  contents := by rw [contents_array rfl hview rfl, List.map_nil, List.append_nil]

theorem ready_object {v : V} {es : String → Option (Json S)} (hview : D.view v = .object es)
    (ownership : FrameOwnership) :
    (⟨some v, true, .dynamicValue (.object .idle []), ownership⟩ : Frame V).Ready D
      (some (.object es)) where
  sound := ⟨rfl, ⟨v, es, rfl, hview, List.nodup_nil, nofun, nofun⟩, fun _ => rfl, nofun⟩
  resting := rfl
  contents := by rw [contents_object rfl hview rfl, overlay_nil]

theorem beginArray_ensures (ownership : FrameOwnership) :
    Ensures Stop.IsError (fun g => g.Ready D (some (.array [])) ∧ (Frame.new ownership).Follows g)
      ((Frame.new ownership : Frame V).beginArray D) :=
  ⟨ready_array D.view_beginArray ownership, rfl, fun _ => rfl, fun _ => rfl⟩

theorem beginObject_ensures (ownership : FrameOwnership) :
    Ensures Stop.IsError
      (fun g => g.Ready D (some (.object fun _ => none)) ∧ (Frame.new ownership).Follows g)
      ((Frame.new ownership : Frame V).beginObject D) :=
  ⟨ready_object D.view_beginObject ownership, rfl, fun _ => rfl, fun _ => rfl⟩

/-- A fresh frame in the place of one that owned its memory. -/
theorem follows_of_new {f g : Frame V} (h : (Frame.new f.ownership).Follows g) : f.Follows g :=
  ⟨h.ownership, fun _ => h.pendingElements rfl, fun _ => h.pendingEntries rfl⟩

theorem initList_ensures (hf : f.Ready D x) (hperm : f.InitListPermitted D) :
    Ensures Stop.IsError (fun g => g.Ready D (some (Json.toArray x)) ∧ f.Follows g)
      (f.initList D) := by
  have hsound := hf.sound
  have hfits := hsound.fits
  have hx := hf.contents
  -- Where the value is replaced, it was no array.
  have hreplace : Json.toArray x = .array [] →
      Ensures Stop.IsError (fun g => g.Ready D (some (Json.toArray x)) ∧ f.Follows g)
        ((Frame.new f.ownership : Frame V).beginArray D) := by
    intro hempty
    rw [hempty]
    exact (beginArray_ensures f.ownership).mono fun g hg => ⟨hg.1, follows_of_new hg.2⟩
  unfold InitListPermitted at hperm
  unfold initList
  cases htracker : f.tracker with
  | scalar =>
    rw [htracker] at hperm
    rw [contents_scalar htracker] at hx
    cases hinit : f.isInit with
    | true =>
      obtain ⟨v, hdata, harray⟩ := hperm hinit
      obtain ⟨xs, hview⟩ := Json.exists_of_isArray harray
      rw [hdata, Option.map_some, hview] at hx
      rw [← hx, hdata]
      exact ⟨ready_array hview f.ownership, rfl, fun _ => rfl, fun _ => rfl⟩
    | false =>
      have hnew := eq_new hsound htracker hinit
      have hnone : x = none := by
        rw [← hx, hnew]
        rfl
      rw [if_neg Bool.false_ne_true]
      exact hnew ▸ hreplace (by rw [hnone]; rfl)
  | dynamicValue state =>
    rw [htracker] at hperm hfits
    cases state with
    | uninit => exact hfits.elim
    | scalar =>
      obtain ⟨s, hs⟩ := hsound.plain htracker hperm
      rw [deinitForReplace_of_owned hsound hperm]
      exact hreplace (by rw [← hx, hs]; rfl)
    | array building pending =>
      obtain ⟨v, xs, hdata, hview⟩ := hfits
      rw [contents_array hdata hview htracker] at hx
      refine ⟨⟨hsound, hf.resting, ?_⟩, .refl f⟩
      rw [contents_array hdata hview htracker, ← hx]
      rfl
    | object state pending =>
      obtain ⟨v, es, hdata, hview, -⟩ := hfits
      rw [contents_object hdata hview htracker] at hx
      rw [deinitForReplace_of_owned hsound hperm]
      exact hreplace (by rw [← hx]; rfl)

theorem initMap_ensures (hf : f.Ready D x) (hperm : f.InitMapPermitted D) :
    Ensures Stop.IsError (fun g => g.Ready D (some (Json.toObject x)) ∧ f.Follows g)
      (f.initMap D) := by
  have hsound := hf.sound
  have hfits := hsound.fits
  have hx := hf.contents
  have hreplace : Json.toObject x = .object (fun _ => none) →
      Ensures Stop.IsError (fun g => g.Ready D (some (Json.toObject x)) ∧ f.Follows g)
        ((Frame.new f.ownership : Frame V).beginObject D) := by
    intro hempty
    rw [hempty]
    exact (beginObject_ensures f.ownership).mono fun g hg => ⟨hg.1, follows_of_new hg.2⟩
  unfold InitMapPermitted at hperm
  unfold initMap
  cases htracker : f.tracker with
  | scalar =>
    rw [htracker] at hperm
    rw [contents_scalar htracker] at hx
    cases hinit : f.isInit with
    | true =>
      obtain ⟨v, hdata⟩ := Option.isSome_iff_exists.mp (hsound.init ▸ hinit)
      rw [hdata, Option.map_some] at hx
      have hkind : D.callGetKind f.data = .ok (D.vtable.getKind v) := by rw [hdata]; rfl
      rw [if_pos rfl, hkind]
      by_cases hobject : D.vtable.getKind v = .object
      · obtain ⟨es, hview⟩ := Json.exists_of_isObject ((D.getKind_object_iff v).mp hobject)
        rw [hview] at hx
        rw [← hx, hobject, hdata]
        exact ⟨ready_object hview f.ownership, rfl, fun _ => rfl, fun _ => rfl⟩
      · have hview : (D.view v).isObject = false := by
          rw [← Bool.not_eq_true, ← D.getKind_object_iff]
          exact hobject
        have howned : f.ownership.isBorrowed = false := by
          rw [← Bool.not_eq_true]
          intro hborrowed
          obtain ⟨w, hw, hwobject⟩ := hperm hborrowed
          cases hdata.symm.trans hw
          rw [hview] at hwobject
          cases hwobject
        rw [deinitForReplace_of_owned hsound howned]
        dsimp only [bind, Except.bind]
        rw [if_neg hobject]
        exact hreplace (by rw [← hx, Json.toObject_of_not_isObject hview])
    | false =>
      have hnew := eq_new hsound htracker hinit
      have hnone : x = none := by
        rw [← hx, hnew]
        rfl
      rw [if_neg Bool.false_ne_true]
      exact hnew ▸ hreplace (by rw [hnone]; rfl)
  | dynamicValue state =>
    rw [htracker] at hperm hfits
    cases state with
    | uninit => exact hfits.elim
    | scalar =>
      obtain ⟨s, hs⟩ := hsound.plain htracker hperm
      rw [deinitForReplace_of_owned hsound hperm]
      exact hreplace (by rw [← hx, hs]; rfl)
    | object state pending =>
      obtain ⟨v, es, hdata, hview, -⟩ := hfits
      rw [contents_object hdata hview htracker] at hx
      refine ⟨⟨hsound, hf.resting, ?_⟩, .refl f⟩
      rw [contents_object hdata hview htracker, ← hx]
      rfl
    | array building pending =>
      obtain ⟨v, xs, hdata, hview⟩ := hfits
      rw [contents_array hdata hview htracker] at hx
      rw [deinitForReplace_of_owned hsound hperm]
      exact hreplace (by rw [← hx]; rfl)

theorem ready_same (v : V) {tracker : Tracker V} {ownership : FrameOwnership}
    (h : tracker = .scalar ∨ tracker = .dynamicValue .scalar ∧ ownership.isBorrowed = true) :
    (⟨some v, true, tracker, ownership⟩ : Frame V).Ready D (some (D.view v)) := by
  rcases h with rfl | ⟨rfl, hborrowed⟩
  · exact ⟨⟨rfl, trivial, fun _ => rfl, nofun⟩, trivial, contents_scalar rfl⟩
  · refine ⟨⟨rfl, rfl, fun _ => rfl, fun _ howned => ?_⟩, trivial, contents_of_settled rfl rfl⟩
    rw [hborrowed] at howned
    cases howned

theorem setScalar_ensures {v : V} {s : S} (hview : D.view v = .scalar s)
    (ownership : FrameOwnership) :
    Ensures Stop.IsError
      (fun g => g.Ready D (some (.scalar s)) ∧ (Frame.new ownership).Follows g)
      ((Frame.new ownership : Frame V).setScalar v) := by
  have hcontents : (⟨some v, true, .dynamicValue .scalar, ownership⟩ : Frame V).contents D =
      some (.scalar s) := by
    rw [contents_of_settled rfl rfl]
    exact congrArg some hview
  exact ⟨⟨⟨rfl, rfl, fun _ => rfl, fun _ _ => ⟨s, hcontents⟩⟩, trivial, hcontents⟩,
    rfl, fun _ => rfl, fun _ => rfl⟩

theorem setFloat_ensures (y : F) (refused : String) (ownership : FrameOwnership) :
    Ensures Stop.IsError
      (fun g => ∃ s, D.scalars.f64 y = some s ∧ g.Ready D (some (.scalar s)) ∧
        (Frame.new ownership).Follows g)
      ((Frame.new ownership : Frame V).setFloat D y refused) := by
  have hset := D.view_setF64 y
  unfold setFloat
  cases hv : D.vtable.setF64 y with
  | none => exact trivial
  | some v =>
    rw [hv, Option.map_some] at hset
    obtain ⟨s, hs, hview⟩ := Option.map_eq_some_iff.mp hset.symm
    exact (setScalar_ensures hview.symm ownership).mono fun g hg => ⟨s, hs, hg⟩

theorem set_ensures {src : Source V F} (hf : f.Ready D x) (hperm : f.SetPermitted src) :
    Ensures Stop.IsError
      (fun g => ∃ j, src.json D = some j ∧ g.Ready D (some j) ∧ f.Follows g) (f.set D src) := by
  unfold set
  cases hborrowed : f.ownership.isBorrowed with
  | true =>
    rw [deinitForReplace_of_borrowed hf.sound hborrowed]
    cases src with
    | same v =>
      exact ⟨_, rfl, ready_same v (.inr ⟨rfl, hborrowed⟩), rfl, fun _ => rfl, fun _ => rfl⟩
    | _ => exact (hperm hborrowed).elim
  | false =>
    rw [deinitForReplace_of_owned hf.sound hborrowed]
    have hset : ∀ {v : V} {s : S}, D.view v = .scalar s → src.json D = some (.scalar s) →
        Ensures Stop.IsError
          (fun g => ∃ j, src.json D = some j ∧ g.Ready D (some j) ∧ f.Follows g)
          ((Frame.new f.ownership : Frame V).setScalar v) := fun hview hjson =>
      (setScalar_ensures hview f.ownership).mono fun g hg =>
        ⟨_, hjson, hg.1, follows_of_new hg.2⟩
    cases src with
    | same v =>
      exact ⟨_, rfl, ready_same v (.inl rfl), rfl, fun _ => rfl, fun _ => rfl⟩
    | boolean b => exact hset (D.view_setBool b) rfl
    | float sizeBits y =>
      have hfloat : ∀ refused, Ensures Stop.IsError
          (fun g => ∃ j, (Source.float (V := V) sizeBits y).json D = some j ∧
            g.Ready D (some j) ∧ f.Follows g)
          ((Frame.new f.ownership : Frame V).setFloat D y refused) := fun refused =>
        (setFloat_ensures y refused f.ownership).mono fun g ⟨s, hs, hg⟩ =>
          ⟨.scalar s, by rw [Source.json, hs, Option.map_some], hg.1, follows_of_new hg.2⟩
      dsimp only
      by_cases h64 : sizeBits = 64
      · rw [if_pos h64]
        exact hfloat _
      · rw [if_neg h64]
        by_cases h32 : sizeBits = 32
        · rw [if_pos h32]
          exact hfloat _
        · rw [if_neg h32]
          exact trivial
    | signed sizeBits n =>
      dsimp only
      by_cases hsize : sizeBits ∈ [8, 16, 32, 64]
      · rw [if_pos hsize]
        exact hset (D.view_setI64 n) rfl
      · rw [if_neg hsize]
        exact trivial
    | unsigned sizeBits n =>
      dsimp only
      by_cases hsize : sizeBits ∈ [8, 16, 32, 64]
      · rw [if_pos hsize]
        exact hset (D.view_setU64 n) rfl
      · rw [if_neg hsize]
        exact trivial
    | char c => exact hset (D.view_setStr _) rfl
    | text s => exact hset (D.view_setStr s) rfl
    | bytes bs =>
      dsimp only
      cases hbytes : D.vtable.setBytes with
      | none => exact trivial
      | some setBytes => exact hset (D.view_setBytes setBytes hbytes bs) rfl
    | string s => exact hset (D.view_setStr s) rfl
    | other => exact trivial

/-- What the frame above is for the one below it. -/
def Linked (D : DynamicType S V F) (parent : Frame V) : FrameOwnership → Role → Prop
  | .owned, role =>
    match parent.tracker with
    | .dynamicValue (.array true _) => role = .element
    | .dynamicValue (.object (.buildingValue key) _) => role = .entry key
    | _ => False
  | .borrowedInPlace (.pending index), role =>
    ∃ pending key v, parent.tracker = .dynamicValue (.object .idle pending) ∧
      pending[index]? = some (key, v) ∧ role = .entry key
  | .borrowedInPlace (.entry key), role =>
    ∃ pending get o, parent.tracker = .dynamicValue (.object .idle pending) ∧
      D.vtable.objectGetMut = some get ∧ parent.data = some o ∧ (get o key).isSome ∧
      key ∉ pending.map Prod.fst ∧ role = .entry key
  | .field _, _ => False

/-- A frame opened above another one: the child is ready, the parent stands for what it did. -/
structure Opens (D : DynamicType S V F) (f : Frame V) (x y : Option (Json S)) (role : Role)
    (r : Frame V × Frame V) : Prop where
  child : r.1.Ready D y
  sound : r.2.Sound D
  contents : r.2.contents D = x
  linked : Linked D r.2 r.1.ownership role
  follows : f.Follows r.2

theorem beginListItem_ensures (hf : f.Ready D x) :
    Ensures Stop.IsError
      (fun r => (∃ xs, x = some (.array xs)) ∧ f.Opens D x none .element r ∧
        r.1.pendingElements = [] ∧ r.1.pendingEntries = [])
      f.beginListItem := by
  have hsound := hf.sound
  have hfits := hsound.fits
  have hx := hf.contents
  unfold beginListItem
  cases htracker : f.tracker with
  | scalar => exact trivial
  | dynamicValue state =>
    cases state with
    | array building pending =>
      cases building with
      | true => exact trivial
      | false =>
        rw [htracker] at hfits
        obtain ⟨v, xs, hdata, hview⟩ := hfits
        rw [contents_array hdata hview htracker] at hx
        refine ⟨⟨_, hx.symm⟩, ⟨ready_new rfl, ⟨hsound.init, ⟨v, xs, hdata, hview⟩,
          hsound.borrowed, nofun⟩, ?_, rfl, rfl, ?_, fun _ => rfl⟩, rfl, rfl⟩
        · rw [← hx]
          exact contents_array hdata hview rfl
        · intro hnone
          rwa [pendingElements, htracker] at hnone
    | _ => exact trivial

theorem mem_of_find?_zipIdx {pending : List (String × V)} {key : String}
    {e : (String × V) × ℕ} (h : (pending.zipIdx.find? fun e => e.1.1 = key) = some e) :
    pending[e.2]? = some e.1 ∧ e.1.1 = key := by
  have hmem := List.mem_of_find?_eq_some h
  have hkey := List.find?_some h
  exact ⟨List.mem_zipIdx_iff_getElem?.mp hmem, of_decide_eq_true hkey⟩

theorem notMem_of_find?_zipIdx {pending : List (String × V)} {key : String}
    (h : (pending.zipIdx.find? fun e => e.1.1 = key) = none) : key ∉ pending.map Prod.fst := by
  intro hmem
  obtain ⟨e, he, rfl⟩ := List.mem_map.mp hmem
  obtain ⟨index, hindex⟩ := List.mem_iff_getElem?.mp he
  have hzip : (e, index) ∈ pending.zipIdx := List.mem_zipIdx_iff_getElem?.mpr hindex
  have hne := List.find?_eq_none.mp h (e, index) hzip
  simp at hne

theorem beginObjectEntry_ensures {key : String} (hf : f.Ready D x)
    (hperm : f.EntryPermitted D key) :
    Ensures Stop.IsError
      (fun r => ∃ es, x = some (.object es) ∧ f.Opens D x (es key) (.entry key) r ∧
        r.1.pendingElements = [] ∧ r.1.pendingEntries = [])
      (f.beginObjectEntry D key) := by
  have hsound := hf.sound
  have hfits := hsound.fits
  have hx := hf.contents
  unfold beginObjectEntry
  cases htracker : f.tracker with
  | scalar => exact trivial
  | dynamicValue state =>
    cases state with
    | object state pending =>
      cases state with
      | buildingValue key => exact trivial
      | idle =>
        cases hinit : f.isInit with
        | false => exact trivial
        | true =>
          rw [htracker] at hfits
          obtain ⟨o, es, hdata, hview, hnodup, hnew, -⟩ := hfits
          rw [contents_object hdata hview htracker] at hx
          dsimp only
          cases hfind : pending.zipIdx.find? fun e => e.1.1 = key with
          | some e =>
            obtain ⟨⟨k, v⟩, index⟩ := e
            obtain ⟨hindex, rfl⟩ := mem_of_find?_zipIdx hfind
            have hentry : overlay D es pending k = some (D.view v) :=
              overlay_of_mem hnodup (List.mem_of_getElem? hindex)
            refine ⟨_, hx.symm, ⟨?_, hsound, hx ▸ contents_object hdata hview htracker,
              ⟨pending, k, v, htracker, hindex, rfl⟩, .refl f⟩, rfl, rfl⟩
            rw [hentry]
            exact ready_reentered v _
          | none =>
            have hnotMem := notMem_of_find?_zipIdx hfind
            have hkey : overlay D es pending key = es key := overlay_of_notMem hnotMem
            -- A key that is nowhere gets a fresh value.
            have hfresh : es key = none → f.Opens D x (overlay D es pending key) (.entry key)
                (.new .owned, { f with
                  tracker := .dynamicValue (.object (.buildingValue key) pending) }) := by
              intro hnone
              rw [hkey, hnone]
              refine ⟨ready_new rfl, ⟨hsound.init, ⟨o, es, hdata, hview, hnodup, hnew, ?_⟩,
                hsound.borrowed, nofun⟩, ?_, rfl, rfl, fun _ => rfl, ?_⟩
              · intro key' hstate
                cases hstate
                rw [hkey, hnone]
              · rw [← hx]
                exact contents_object hdata hview rfl
              · intro hentries
                rwa [pendingEntries, htracker] at hentries
            rw [hdata, hinit] at hfresh
            rw [hdata]
            unfold DynamicType.callObjectGetMut
            cases hget : D.vtable.objectGetMut with
            | none => exact ⟨_, hx.symm, hfresh (hperm hget o es hdata hview), rfl, rfl⟩
            | some get =>
              have hobject : (D.view o).isObject = true := by rw [hview, Json.isObject_object]
              dsimp only
              rw [if_pos hobject]
              cases hres : get o key with
              | none =>
                have hnone := (D.objectGetMut_none get hget o key es hview).mp hres
                exact ⟨_, hx.symm, hfresh hnone, rfl, rfl⟩
              | some r =>
                obtain ⟨v, put⟩ := r
                obtain ⟨hentry, -⟩ := D.objectGetMut_some get hget o key es v put hview hres
                refine ⟨_, hx.symm, ⟨?_, hsound, hx ▸ contents_object hdata hview htracker,
                  ⟨pending, get, o, htracker, hget, hdata, by rw [hres]; rfl, hnotMem, rfl⟩,
                  .refl f⟩, rfl, rfl⟩
                rw [hkey, hentry]
                exact ready_reentered v _
    | _ => exact trivial

end Frame

end Facet.Dynamic
