import Facet.Dynamic.Steps

/-!
# Faithful construction

A run whose operations meet their conditions calls the vtable as the contracts ask, and what
`build` delivers is the document that the operations describe. Each of the conditions is
needed.
-/

namespace Facet.Dynamic

open GuardedRun

variable {S V F : Type} {D : DynamicType S V F} {p : Partial V} {doc : Document S}

theorem Partial.dropStored_of_none {mode : FrameMode V} (h : ∀ idx, mode.stored idx = none)
    (vs : List V) : Partial.dropStored mode vs = vs.map some := by
  unfold Partial.dropStored
  simp only [h]
  conv_rhs => rw [← List.zipIdx_map_fst 0 vs, List.map_map]
  rfl

namespace Refines

/-- An operation that meets its condition is the operation on documents of the same name. -/
theorem step_simulates (h : Refines D p doc) (op : Op V F) (hperm : D.Permitted p op) :
    Ensures Stop.IsError (fun p' => ∃ doc', doc.step D op = some doc' ∧ Refines D p' doc')
      (D.step p op) := by
  cases op with
  | initList =>
    have hop : ∀ f x, p.frames.head? = some f → f.Ready D x →
        Ensures Stop.IsError
          (fun g => ∃ j, some (Json.toArray x) = some j ∧ g.Ready D (some j) ∧ f.Follows g)
          (f.initList D) := by
      intro f x hf hready
      exact (Frame.initList_ensures hready (hperm f hf)).mono fun g hg => ⟨_, rfl, hg⟩
    exact h.onTop hop
  | initMap =>
    have hop : ∀ f x, p.frames.head? = some f → f.Ready D x →
        Ensures Stop.IsError
          (fun g => ∃ j, some (Json.toObject x) = some j ∧ g.Ready D (some j) ∧ f.Follows g)
          (f.initMap D) := by
      intro f x hf hready
      exact (Frame.initMap_ensures hready (hperm f hf)).mono fun g hg => ⟨_, rfl, hg⟩
    exact h.onTop hop
  | set src =>
    have hop : ∀ f x, p.frames.head? = some f → f.Ready D x →
        Ensures Stop.IsError
          (fun g => ∃ j, src.json D = some j ∧ g.Ready D (some j) ∧ f.Follows g)
          (f.set D src) := by
      intro f x hf hready
      exact Frame.set_ensures hready (hperm f hf)
    exact h.onTop hop
  | beginListItem =>
    have hop : ∀ f x, p.frames.head? = some f → f.Ready D x →
        Ensures Stop.IsError
          (fun r => ∃ d, Document.beginElement x = some d ∧ f.Opens D x d.value d.role r ∧
            r.1.pendingElements = [] ∧ r.1.pendingEntries = [])
          f.beginListItem := by
      intro f x hf hready
      apply (Frame.beginListItem_ensures hready).mono
      rintro r ⟨⟨xs, rfl⟩, hopens, hpending⟩
      exact ⟨_, rfl, hopens, hpending⟩
    exact h.onPush hop
  | beginObjectEntry key =>
    have hop : ∀ f x, p.frames.head? = some f → f.Ready D x →
        Ensures Stop.IsError
          (fun r => ∃ d, Document.beginEntry key x = some d ∧ f.Opens D x d.value d.role r ∧
            r.1.pendingElements = [] ∧ r.1.pendingEntries = [])
          (f.beginObjectEntry D key) := by
      intro f x hf hready
      apply (Frame.beginObjectEntry_ensures hready (hperm f hf)).mono
      rintro r ⟨es, rfl, hopens, hpending⟩
      exact ⟨_, rfl, hopens, hpending⟩
    exact h.onPush hop
  | endFrame => exact h.endFrame_simulates
  | beginNthField idx => exact h.beginNthField_simulates idx
  | beginDeferred => exact h.beginDeferred_simulates
  | finishDeferred => exact h.finishDeferred_simulates hperm

theorem build_shows_of_frame (h : Refines D p doc) {f : Frame V} (hframes : p.frames = [f])
    (hroot : p.root = none) :
    Ensures Stop.IsError (fun built => doc.Shows D built) (p.build D) := by
  obtain ⟨d, rest, hdrafts, hready⟩ := h.top hframes
  have hstacked := h.stacked
  rw [hframes, hdrafts] at hstacked
  cases hstacked with
  | bottom hgrounded _ _ =>
    rw [hroot] at hgrounded
    unfold Partial.build
    rw [hframes, hroot]
    dsimp only
    apply (Frame.requireFullInitialization_ensures hready.sound hready.contents).bind
    rintro g ⟨hcomplete, -, -⟩
    obtain ⟨v, hvalue, hd⟩ := hcomplete.value
    rw [hvalue]
    obtain ⟨value, role⟩ := d
    obtain rfl : value = some (D.view v) := hd
    obtain rfl : role = .root := hgrounded.2
    exact hdrafts

theorem build_shows_of_fields (h : Refines D p doc) (hperm : p.BuildPermitted)
    (hframes : p.frames = []) {r : StructFrame V} (hroot : p.root = some r) :
    Ensures Stop.IsError (fun built => doc.Shows D built) (p.build D) := by
  have hfields := h.fields r hroot
  have hslot {idx : ℕ} (hr : idx < r.fields.length) (hd : idx < doc.fields.length) :
      SlotShows D r.fields[idx] doc.fields[idx] := by
    have hshows := hfields.shows idx _ _ (List.getElem?_eq_getElem hr)
      (List.getElem?_eq_getElem hd) (by rw [hframes]; nofun)
    rwa [hperm idx] at hshows
  unfold Partial.build
  rw [hframes, hroot]
  dsimp only
  apply (requireFields_ensures r).bind
  intro _ hset
  apply (ensures_mapM (R := fun slot v => slot.content = some v) ?_).bind
  · intro vs hvs
    refine ⟨(hframes ▸ h.stacked).eq_nil, vs, Partial.dropStored_of_none hperm vs, ?_⟩
    have hlength : doc.fields.length = vs.length := hfields.length.trans hvs.length_eq
    apply List.ext_getElem (by rw [List.length_map, hlength])
    intro idx hidx hidx'
    have hr : idx < r.fields.length := hfields.length ▸ hidx
    have hv : idx < vs.length := hlength ▸ hidx
    have hcontent : r.fields[idx].content = some vs[idx] := hvs.get hr hv
    rw [List.getElem_map, ← (hslot hr hidx).contents, hcontent, Option.map_some]
  · intro slot hmem
    obtain ⟨idx, hr, rfl⟩ := List.mem_iff_getElem.mp hmem
    have hd : idx < doc.fields.length := hfields.length ▸ hr
    have hsome : r.fields[idx].content.isSome := by
      rw [← (hslot hr hd).isSet, hset _ hmem]
    obtain ⟨v, hv⟩ := Option.isSome_iff_exists.mp hsome
    rw [hv]
    rfl

theorem build_shows (h : Refines D p doc) (hperm : p.BuildPermitted) :
    Ensures Stop.IsError (fun built => doc.Shows D built) (p.build D) := by
  cases hframes : p.frames with
  | nil =>
    cases hroot : p.root with
    | none =>
      rw [Partial.build, hframes, hroot]
      exact trivial
    | some r => exact h.build_shows_of_fields hperm hframes hroot
  | cons f below =>
    cases below with
    | nil =>
      cases hroot : p.root with
      | none => exact h.build_shows_of_frame hframes hroot
      | some r =>
        rw [Partial.build, hframes, hroot]
        exact trivial
    | cons g rest =>
      rw [Partial.build, hframes]
      exact trivial

theorem alloc (D : DynamicType S V F) (fields : Option ℕ) :
    Refines D (Partial.alloc fields) (Document.new fields) := by
  cases fields with
  | none =>
    refine ⟨.bottom ⟨rfl, rfl⟩ (Frame.ready_new rfl).sound (Frame.ready_new rfl).contents, ?_,
      nofun, ?_, ?_⟩
    · intro f hf
      cases hf
      trivial
    · intro _ f hf
      rw [List.mem_singleton.mp hf]
      exact ⟨rfl, rfl⟩
    · intro _ f hf
      rw [List.mem_singleton.mp hf]
      rfl
  | some n =>
    refine ⟨.empty rfl, nofun, ?_, nofun, nofun⟩
    intro r hr
    cases hr
    refine ⟨by simp [Document.new], nofun, nofun, ?_⟩
    intro idx slot x hslot hx _
    obtain rfl := List.eq_of_mem_replicate (List.mem_of_getElem? hslot)
    obtain rfl := List.eq_of_mem_replicate (List.mem_of_getElem? hx)
    exact ⟨rfl, rfl⟩

end Refines

namespace DynamicType

variable (D)

/-- Every call of the vtable has its precondition, and what is built is the document that the
operations describe. -/
def Faithful (fields : Option ℕ) (ops : List (Op V F)) : Prop :=
  (∀ c, D.run (Partial.alloc fields) ops ≠ .error (.violated c)) ∧
    ∀ p, D.run (Partial.alloc fields) ops = .ok p →
      (∀ c, p.build D ≠ .error (.violated c)) ∧
        ∀ built, p.build D = .ok built →
          ∃ doc, Document.run D (Document.new fields) ops = some doc ∧ doc.Shows D built

/-- Every operation of the run meets its condition, and so does `build`. -/
def RunPermitted (fields : Option ℕ) (ops : List (Op V F)) : Prop :=
  Guarded D.step D.Permitted (Partial.alloc fields) ops ∧
    ∀ p, D.run (Partial.alloc fields) ops = .ok p → p.BuildPermitted

theorem run_faithful (fields : Option ℕ) (ops : List (Op V F)) (h : D.RunPermitted fields ops) :
    D.Faithful fields ops := by
  have hrun := run_simulates (fun p doc op hR hperm => hR.step_simulates op hperm)
    (Refines.alloc D fields) h.1
  refine ⟨fun c hc => ?_, fun p hp => ?_⟩
  · rw [run] at hc
    rw [hc] at hrun
    exact hrun
  · have hbuild := h.2 p hp
    rw [run] at hp
    rw [hp] at hrun
    obtain ⟨doc, hdoc, hrefines⟩ := hrun
    have hshows := hrefines.build_shows hbuild
    refine ⟨fun c hc => ?_, fun built hb => ⟨doc, hdoc, ?_⟩⟩
    · rw [hc] at hshows
      exact hshows
    · rw [hb] at hshows
      exact hshows

/-- A list under a key is built, entered again through its key and extended. -/
def extendingRun : List (Op (Json Atom) UInt64) :=
  [.initMap, .beginObjectEntry "a", .initList, .beginListItem, .set (.signed 64 1), .endFrame,
    .endFrame, .beginObjectEntry "a", .initList, .beginListItem, .set (.boolean true), .endFrame,
    .endFrame]

theorem extendingRun_faithful : (Json.dynamicType true).Faithful none extendingRun := by
  apply run_faithful
  refine ⟨?_, fun p hp idx => by cases hp; rfl⟩
  refine .cons (fun f hf => by cases hf; exact nofun) rfl ?_
  refine .cons (fun f _ => nofun) rfl ?_
  refine .cons (fun f hf => by cases hf; exact nofun) rfl ?_
  refine .cons trivial rfl ?_
  refine .cons (fun f hf => by cases hf; exact nofun) rfl ?_
  refine .cons trivial rfl (.cons trivial rfl (.cons (fun f _ => nofun) rfl ?_))
  refine .cons (fun f hf => by cases hf; exact fun _ => ⟨_, rfl, rfl⟩) rfl ?_
  refine .cons trivial rfl ?_
  refine .cons (fun f hf => by cases hf; exact nofun) rfl ?_
  exact .cons trivial rfl (.cons trivial rfl trivial)

/-- Each condition is needed: a scalar entered again and asked for a list, a scalar entered again
and set, deferred mode finished while elements of a lower array wait, a key entered again that
the vtable cannot find, and `build` in deferred mode with a field stored. -/
theorem not_faithful :
    (¬ (Json.dynamicType true).Faithful none
      [.initMap, .beginObjectEntry "a", .set (.signed 64 1), .endFrame, .beginObjectEntry "a",
        .initList, .beginListItem, .set (.boolean true), .endFrame]) ∧
    (¬ (Json.dynamicType true).Faithful none
      [.initMap, .beginObjectEntry "a", .set (.signed 64 1), .endFrame, .beginObjectEntry "a",
        .set (.boolean true)]) ∧
    (¬ (Json.dynamicType true).Faithful (some 1)
      [.beginDeferred, .beginNthField 0, .initList, .beginListItem, .set (.signed 64 1), .endFrame,
        .beginListItem, .set (.boolean true), .finishDeferred, .endFrame, .endFrame]) ∧
    (¬ (Json.dynamicType false).Faithful none
      [.initMap, .beginObjectEntry "a", .initList, .beginListItem, .set (.signed 64 1), .endFrame,
        .endFrame, .beginObjectEntry "a", .initList, .beginListItem, .set (.boolean true),
        .endFrame, .endFrame]) ∧
    ¬ (Json.dynamicType true).Faithful (some 1)
      [.beginDeferred, .beginNthField 0, .set (.signed 64 1), .endFrame] := by
  refine ⟨fun h => h.1 .pushOnNonArray rfl, fun h => h.1 .setOnLiveValue rfl, ?_, ?_, ?_⟩
  · intro h
    -- The element that waited stands behind the one that came after it.
    obtain ⟨doc, hdoc, -, vs, hcontents, hfields⟩ := (h.2 _ rfl).2
      (.fields [some (.array [.scalar (.bool true), .scalar (.i64 1)])]) rfl
    cases hdoc
    cases vs with
    | nil => cases hfields
    | cons v vs =>
      obtain ⟨hv, -⟩ := List.cons.inj hcontents
      cases hv
      cases hfields
  · intro h
    obtain ⟨doc, hdoc, hshows⟩ := (h.2 _ rfl).2 _ rfl
    cases hdoc
    -- The document holds both elements under the key, the value only the second.
    have hkey := congrArg (List.map fun d : Draft Atom => d.value.bind (Json.entry? "a")) hshows
    cases hkey
  · intro h
    obtain ⟨doc, hdoc, -, vs, hdropped, hfields⟩ := (h.2 _ rfl).2 _ rfl
    cases hdoc
    cases vs with
    | nil => cases hfields
    | cons v vs => cases hdropped

end DynamicType

end Facet.Dynamic
