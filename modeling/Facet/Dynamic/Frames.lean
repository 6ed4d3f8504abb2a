import Facet.Dynamic.Document
import Facet.Lib.GuardedRun
import Mathlib.Data.List.Nodup

/-!
# What a frame stands for

A frame of a dynamic value stands for the contents of its memory with the pending items added.
Each operation on a frame that meets its condition calls the vtable as the contracts ask, and
changes the contents as the operation on documents says.
-/

namespace Facet.Dynamic

open GuardedRun

variable {S V F : Type}

/-- The errors of the source, as opposed to calls without their precondition. -/
def Stop.IsError : Stop → Prop
  | .error _ => True
  | .violated _ => False

def FrameOwnership.isBorrowed : FrameOwnership → Bool
  | .borrowedInPlace _ => true
  | _ => false

/-- The entries of an object with pending ones put in. -/
def overlay (D : DynamicType S V F) (es : String → Option (Json S)) (pending : List (String × V)) :
    String → Option (Json S) :=
  pending.foldl (fun es e => Function.update es e.1 (some (D.view e.2))) es

section Overlay

variable (D : DynamicType S V F) (es : String → Option (Json S))

@[simp]
theorem overlay_nil : overlay D es [] = es := rfl

theorem overlay_cons (e : String × V) (pending : List (String × V)) :
    overlay D es (e :: pending) =
      overlay D (Function.update es e.1 (some (D.view e.2))) pending := rfl

theorem overlay_append (pending : List (String × V)) (e : String × V) :
    overlay D es (pending ++ [e]) =
      Function.update (overlay D es pending) e.1 (some (D.view e.2)) := by
  simp [overlay]

variable {D es}

theorem overlay_of_notMem {pending : List (String × V)} {key : String}
    (h : key ∉ pending.map Prod.fst) : overlay D es pending key = es key := by
  induction pending generalizing es with
  | nil => rfl
  | cons e pending ih =>
    rw [List.map_cons, List.mem_cons, not_or] at h
    rw [overlay_cons, ih h.2, Function.update_of_ne h.1]

theorem overlay_of_mem {pending : List (String × V)} (hnodup : (pending.map Prod.fst).Nodup)
    {key : String} {v : V} (h : (key, v) ∈ pending) :
    overlay D es pending key = some (D.view v) := by
  induction pending generalizing es with
  | nil => cases h
  | cons e pending ih =>
    rw [List.map_cons, List.nodup_cons] at hnodup
    rw [overlay_cons]
    rcases List.mem_cons.mp h with rfl | h
    · rw [overlay_of_notMem hnodup.1, Function.update_self]
    · exact ih hnodup.2 h

theorem notMem_of_overlay_eq_none {pending : List (String × V)}
    (hnodup : (pending.map Prod.fst).Nodup) {key : String}
    (h : overlay D es pending key = none) : key ∉ pending.map Prod.fst := by
  intro hmem
  obtain ⟨⟨k, v⟩, he, rfl⟩ := List.mem_map.mp hmem
  rw [overlay_of_mem hnodup he] at h
  cases h

theorem overlay_update {pending : List (String × V)} {key : String}
    (h : key ∉ pending.map Prod.fst) (x : Option (Json S)) :
    overlay D (Function.update es key x) pending =
      Function.update (overlay D es pending) key x := by
  induction pending generalizing es with
  | nil => rfl
  | cons e pending ih =>
    rw [List.map_cons, List.mem_cons, not_or] at h
    rw [overlay_cons, overlay_cons, Function.update_comm h.1, ih h.2]

/-- Writing to a pending entry replaces what its key stands for. -/
theorem overlay_modify {pending : List (String × V)} (hnodup : (pending.map Prod.fst).Nodup)
    {index : ℕ} {key : String} {v : V} (h : pending[index]? = some (key, v)) (w : V) :
    overlay D es (pending.modify index fun e => (e.1, w)) =
      Function.update (overlay D es pending) key (some (D.view w)) := by
  induction pending generalizing es index with
  | nil => cases h
  | cons e pending ih =>
    rw [List.map_cons, List.nodup_cons] at hnodup
    cases index with
    | zero =>
      cases h
      rw [List.modify_zero_cons, overlay_cons, overlay_cons, overlay_update hnodup.1,
        overlay_update hnodup.1, Function.update_idem]
    | succ index =>
      rw [List.modify_succ_cons, overlay_cons, overlay_cons]
      exact ih hnodup.2 h

theorem map_fst_modify (pending : List (String × V)) (index : ℕ) (w : V) :
    (pending.modify index fun e => (e.1, w)).map Prod.fst = pending.map Prod.fst := by
  induction pending generalizing index with
  | nil => cases index <;> rfl
  | cons e pending ih =>
    cases index with
    | zero => rfl
    | succ index => simp [ih]

end Overlay

/-- A tracker fits what the memory holds. Pending keys are pairwise different and not keys of
the object, and a key whose value is being built is new. -/
def Tracker.Fits (D : DynamicType S V F) (data : Option V) : Tracker V → Prop
  | .scalar => True
  | .dynamicValue .uninit => False
  | .dynamicValue .scalar => data.isSome
  | .dynamicValue (.array _ _) => ∃ v xs, data = some v ∧ D.view v = .array xs
  | .dynamicValue (.object state pending) => ∃ v es, data = some v ∧ D.view v = .object es ∧
      (pending.map Prod.fst).Nodup ∧ (∀ e ∈ pending, es e.1 = none) ∧
      ∀ key, state = .buildingValue key → overlay D es pending key = none

namespace Frame

/-- What a frame stands for. -/
def contents (D : DynamicType S V F) (f : Frame V) : Option (Json S) :=
  match f.data.map D.view, f.tracker with
  | some (.array xs), .dynamicValue (.array _ pending) =>
    some (.array (xs ++ pending.map D.view))
  | some (.object es), .dynamicValue (.object _ pending) =>
    some (.object (overlay D es pending))
  | j, _ => j

/-- No element or entry is being built above the frame. -/
def Resting (f : Frame V) : Prop :=
  match f.tracker with
  | .dynamicValue (.array building _) => building = false
  | .dynamicValue (.object state _) => state = .idle
  | _ => True

def pendingElements (f : Frame V) : List V :=
  match f.tracker with
  | .dynamicValue (.array _ pending) => pending
  | _ => []

def pendingEntries (f : Frame V) : List (String × V) :=
  match f.tracker with
  | .dynamicValue (.object _ pending) => pending
  | _ => []

structure Sound (D : DynamicType S V F) (f : Frame V) : Prop where
  init : f.isInit = f.data.isSome
  fits : f.tracker.Fits D f.data
  borrowed : f.ownership.isBorrowed = true → f.isInit = true
  /-- Only a setter leaves this tracker in memory the frame owns. -/
  plain : f.tracker = .dynamicValue .scalar → f.ownership.isBorrowed = false →
    ∃ s, f.contents D = some (.scalar s)

/-- A frame that can be on top of the stack, standing for `x`. -/
structure Ready (D : DynamicType S V F) (x : Option (Json S)) (f : Frame V) : Prop where
  sound : f.Sound D
  resting : f.Resting
  contents : f.contents D = x

variable {D : DynamicType S V F} {f : Frame V}

theorem contents_scalar (h : f.tracker = .scalar) : f.contents D = f.data.map D.view := by
  unfold contents
  rw [h]
  cases f.data.map D.view with
  | none => rfl
  | some j => cases j <;> rfl

theorem contents_array {v : V} {xs : List (Json S)} {building : Bool} {pending : List V}
    (hdata : f.data = some v) (hview : D.view v = .array xs)
    (h : f.tracker = .dynamicValue (.array building pending)) :
    f.contents D = some (.array (xs ++ pending.map D.view)) := by
  simp [contents, h, hdata, hview]

theorem contents_object {v : V} {es : String → Option (Json S)}
    {state : DynamicObjectInsertState} {pending : List (String × V)}
    (hdata : f.data = some v) (hview : D.view v = .object es)
    (h : f.tracker = .dynamicValue (.object state pending)) :
    f.contents D = some (.object (overlay D es pending)) := by
  simp [contents, h, hdata, hview]

theorem contents_of_settled (helements : f.pendingElements = [])
    (hentries : f.pendingEntries = []) : f.contents D = f.data.map D.view := by
  obtain ⟨data, isInit, tracker, ownership⟩ := f
  cases tracker with
  | scalar => exact contents_scalar rfl
  | dynamicValue state =>
    unfold contents
    cases data.map D.view with
    | none => rfl
    | some j =>
      cases state with
      | uninit => cases j <;> rfl
      | scalar => cases j <;> rfl
      | array building pending =>
        obtain rfl : pending = [] := helements
        cases j with
        | array xs => exact congrArg (fun ys => some (Json.array ys)) (List.append_nil xs)
        | scalar s => rfl
        | object es => rfl
      | object state pending =>
        obtain rfl : pending = [] := hentries
        cases j <;> rfl

theorem ready_reentered (v : V) (slot : Slot) : (reentered v slot).Ready D (some (D.view v)) where
  sound := ⟨rfl, trivial, fun _ => rfl, nofun⟩
  resting := trivial
  contents := contents_scalar rfl

theorem ready_new {ownership : FrameOwnership} (h : ownership.isBorrowed = false) :
    (Frame.new ownership : Frame V).Ready D none where
  sound :=
    { init := rfl
      fits := trivial
      borrowed := fun hb => by
        rw [Frame.new, h] at hb
        cases hb
      plain := nofun }
  resting := trivial
  contents := contents_scalar rfl

theorem pushAll_ensures {v : V} {xs : List (Json S)} (hview : D.view v = .array xs)
    (pending : List V) :
    Ensures Stop.IsError (fun data => ∃ w, data = some w ∧
      D.view w = .array (xs ++ pending.map D.view))
      (pending.foldlM (fun a x => some <$> D.callPushArrayElement a x) (some v)) := by
  induction pending generalizing v xs with
  | nil => exact ⟨v, rfl, by rw [hview, List.map_nil, List.append_nil]⟩
  | cons x pending ih =>
    have hpush : D.callPushArrayElement (some v) x = .ok (D.vtable.pushArrayElement v x) := by
      simp [DynamicType.callPushArrayElement, hview]
    rw [List.foldlM_cons, hpush]
    apply (ih (D.view_pushArrayElement v x xs hview)).mono
    rintro data ⟨w, hw, hv⟩
    exact ⟨w, hw, by rw [hv, List.map_cons, List.append_assoc, List.singleton_append]⟩

theorem insertAll_ensures {v : V} {es : String → Option (Json S)} (hview : D.view v = .object es)
    {pending : List (String × V)} (hnodup : (pending.map Prod.fst).Nodup)
    (hnew : ∀ e ∈ pending, es e.1 = none) :
    Ensures Stop.IsError (fun data => ∃ w, data = some w ∧
      D.view w = .object (overlay D es pending))
      (pending.foldlM (fun o e => some <$> D.callInsertObjectEntry o e.1 e.2) (some v)) := by
  induction pending generalizing v es with
  | nil => exact ⟨v, rfl, hview⟩
  | cons e pending ih =>
    rw [List.map_cons, List.nodup_cons] at hnodup
    have hinsert : D.callInsertObjectEntry (some v) e.1 e.2 =
        .ok (D.vtable.insertObjectEntry v e.1 e.2) := by
      simp [DynamicType.callInsertObjectEntry, hview]
    rw [List.foldlM_cons, hinsert, overlay_cons]
    apply ih (D.view_insertObjectEntry v e.1 e.2 es hview (hnew e (List.mem_cons_self ..))) hnodup.2
    intro e' he'
    have hne : e'.1 ≠ e.1 := fun h => hnodup.1 (h ▸ List.mem_map_of_mem he')
    rw [Function.update_of_ne hne]
    exact hnew e' (List.mem_cons_of_mem _ he')

/-- A finalised frame: all it stands for is in its memory. -/
structure Complete (D : DynamicType S V F) (x : Option (Json S)) (g : Frame V) : Prop where
  ready : g.Ready D x
  isInit : g.isInit = true
  pendingElements : g.pendingElements = []
  pendingEntries : g.pendingEntries = []

theorem Complete.exists_data {x : Option (Json S)} (h : f.Complete D x) :
    ∃ v, f.data = some v ∧ x = some (D.view v) := by
  obtain ⟨v, hv⟩ := Option.isSome_iff_exists.mp (h.ready.sound.init ▸ h.isInit)
  refine ⟨v, hv, ?_⟩
  rw [← h.ready.contents, contents_of_settled h.pendingElements h.pendingEntries, hv,
    Option.map_some]

theorem Complete.value {x : Option (Json S)} (h : f.Complete D x) :
    ∃ v, f.value = .ok v ∧ x = some (D.view v) := by
  obtain ⟨v, hv, hx⟩ := h.exists_data
  exact ⟨v, by rw [Frame.value, hv], hx⟩

theorem requireFullInitialization_ensures {x : Option (Json S)} (hf : f.Sound D)
    (hx : f.contents D = x) :
    Ensures Stop.IsError (fun g => g.Complete D x ∧ g.ownership = f.ownership ∧ f.Resting)
      (f.requireFullInitialization D) := by
  have hfits := hf.fits
  unfold requireFullInitialization
  cases htracker : f.tracker with
  | scalar =>
    cases hinit : f.isInit with
    | false => exact trivial
    | true =>
      have hrest : f.Resting := by rw [Resting, htracker]; trivial
      exact ⟨⟨⟨hf, hrest, hx⟩, hinit, by rw [pendingElements, htracker],
        by rw [pendingEntries, htracker]⟩, rfl, hrest⟩
  | dynamicValue state =>
    cases state with
    | uninit => exact trivial
    | scalar =>
      rw [htracker] at hfits
      have hrest : f.Resting := by rw [Resting, htracker]; trivial
      exact ⟨⟨⟨hf, hrest, hx⟩, hf.init.trans hfits, by rw [pendingElements, htracker],
        by rw [pendingEntries, htracker]⟩, rfl, hrest⟩
    | array building pending =>
      rw [htracker] at hfits
      obtain ⟨v, xs, hdata, hview⟩ := hfits
      rw [contents_array hdata hview htracker] at hx
      cases building with
      | true => exact trivial
      | false =>
        rw [hdata]
        apply (pushAll_ensures hview pending).bind
        rintro data ⟨w, rfl, hw⟩
        refine ⟨⟨⟨⟨?_, ⟨w, _, rfl, hw⟩, hf.borrowed, nofun⟩, rfl, ?_⟩, ?_, rfl, rfl⟩, rfl, ?_⟩
        · exact hf.init.trans (by rw [hdata]; rfl)
        · rw [contents_array rfl hw rfl, ← hx, List.map_nil, List.append_nil]
        · exact hf.init.trans (by rw [hdata]; rfl)
        · rw [Resting, htracker]
    | object state pending =>
      rw [htracker] at hfits
      obtain ⟨v, es, hdata, hview, hnodup, hnew, -⟩ := hfits
      rw [contents_object hdata hview htracker] at hx
      cases state with
      | buildingValue key => exact trivial
      | idle =>
        rw [hdata]
        apply (insertAll_ensures hview hnodup hnew).bind
        rintro data ⟨w, rfl, hw⟩
        refine ⟨⟨⟨⟨?_, ⟨w, _, rfl, hw, List.nodup_nil, ?_, ?_⟩, hf.borrowed, nofun⟩, rfl, ?_⟩, ?_,
          rfl, rfl⟩, rfl, ?_⟩
        · exact hf.init.trans (by rw [hdata]; rfl)
        · intro e he
          cases he
        · intro key hkey
          cases hkey
        · rw [contents_object rfl hw rfl, ← hx, overlay_nil]
        · exact hf.init.trans (by rw [hdata]; rfl)
        · rw [Resting, htracker]

end Frame

end Facet.Dynamic
