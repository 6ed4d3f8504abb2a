import Facet.Dynamic.Simulation

/-!
# One operation

Each operation of a run, ended frames and deferred mode included, is the operation on documents
of the same name.
-/

namespace Facet.Dynamic

open GuardedRun

variable {S V F : Type} {D : DynamicType S V F} {p : Partial V} {doc : Document S}

namespace Refines

/-- A frame popped in deferred mode below a struct waits in its parent, or is stored for the
field it was building. -/
theorem storeFrame_simulates (h : Refines D p doc) {child : Frame V} {below : List (Frame V)}
    (hframes : p.frames = child :: below) {fields : List (FieldSlot V)} {idx startDepth : ℕ}
    {storedFrames : ℕ → Option (Frame V)} (hroot : p.root = some ⟨fields, some idx⟩)
    (hmode : p.mode = .deferred startDepth storedFrames) :
    Ensures Stop.IsError (fun p' => ∃ doc', doc.finish = some doc' ∧ Refines D p' doc')
      (Partial.storeFrame D ⟨fields, some idx⟩ idx startDepth storedFrames child below) := by
  unfold Partial.storeFrame
  cases below with
  | cons parent rest =>
    obtain ⟨d, e, ds, hdrafts, hready, hlinked, hsound, hcontents, hbelow⟩ := h.pair hframes
    dsimp only
    apply (Frame.receivePending_ensures hsound hcontents hlinked hready.sound
      hready.contents).bind
    rintro r ⟨g, rfl, haccepts, hownership⟩
    obtain ⟨doc', hfinish, hrefines⟩ := h.close hframes hdrafts hbelow haccepts hownership
      (by rw [hroot, hmode]; rintro (h | h) <;> cases h) (by rw [hroot]; intro h; cases h)
    rw [hroot, hmode] at hrefines
    exact ⟨doc', hfinish, hrefines⟩
  | nil =>
    obtain ⟨idx', x, hcurrent, hidx, howner, hdrafts, hready⟩ := h.lowest hframes hroot
    obtain rfl : idx = idx' := Option.some.inj hcurrent
    have hclosed : Partial.closeField ⟨fields, some idx⟩ child =
        ⟨fields.set idx ⟨child.data, true⟩, none⟩ := by
      rw [Partial.closeField, howner]
    refine ⟨⟨doc.fields.set idx x, []⟩, ?_, .empty rfl, fun _ h => (by cases h), ?_,
      fun h => (by cases h), fun h => (by cases h)⟩
    · simp only [Document.finish, hdrafts]
    · intro r hr
      cases hr
      rw [hclosed]
      refine h.fields_closed hroot rfl hidx ?_ ?_
      · intro i hne
        rw [hmode]
        exact Function.update_of_ne hne _ _
      · rw [FrameMode.stored, Function.update_self]
        exact ⟨hready, howner, rfl, rfl⟩

theorem endFrame_simulates (h : Refines D p doc) :
    Ensures Stop.IsError (fun p' => ∃ doc', doc.finish = some doc' ∧ Refines D p' doc')
      (p.endFrame D) := by
  unfold Partial.endFrame
  cases hframes : p.frames with
  | nil => exact trivial
  | cons child below =>
    dsimp only
    by_cases hdepth : p.depth ≤ 1
    · rw [if_pos hdepth]
      exact trivial
    rw [if_neg hdepth]
    have hdepth := Nat.lt_of_not_le hdepth
    cases hmode : p.mode with
    | strict =>
      obtain ⟨d, rest, hdrafts, hready⟩ := h.top hframes
      apply (Frame.requireFullInitialization_ensures hready.sound rfl).bind
      rintro child' ⟨hcomplete, hownership, -⟩
      refine h.popFrame_simulates hframes hdepth (.inr hmode) hownership ?_
        hcomplete.pendingElements hcomplete.pendingEntries fun _ => hcomplete.isInit
      intro x hx
      exact ⟨hcomplete.ready.sound, hcomplete.ready.contents.trans hx.contents⟩
    | deferred startDepth storedFrames =>
      dsimp only
      by_cases hstart : p.depth ≤ startDepth
      · rw [if_pos hstart]
        exact trivial
      rw [if_neg hstart]
      cases hroot : p.root with
      | none =>
        obtain ⟨hce, hcn⟩ := h.atRoot hroot child (by rw [hframes]; simp)
        exact h.popFrame_simulates hframes hdepth (.inl hroot) rfl
          (fun x hx => ⟨hx.sound, hx.contents⟩) hce hcn (by rw [hroot]; nofun)
      | some r =>
        obtain ⟨fields, currentChild⟩ := r
        have hne : p.frames ≠ [] := by rw [hframes]; exact List.cons_ne_nil _ _
        obtain ⟨o, role, hgrounded⟩ := h.stacked.grounded hne
        rw [hroot] at hgrounded
        obtain ⟨idx, hcurrent, -⟩ := hgrounded
        obtain rfl : currentChild = some idx := hcurrent
        exact h.storeFrame_simulates hframes hroot hmode

theorem enter_simulates (h : Refines D p doc) (hframes : p.frames = []) {r : StructFrame V}
    (hroot : p.root = some r) {idx : ℕ} (hstored : p.mode.stored idx = none) :
    Ensures Stop.IsError (fun p' => ∃ doc', doc.beginField idx = some doc' ∧ Refines D p' doc')
      (Partial.beginNthField.enter p idx r) := by
  have hfields := h.fields r hroot
  have hdrafts : doc.drafts = [] := (hframes ▸ h.stacked).eq_nil
  unfold Partial.beginNthField.enter
  cases hslot : r.fields[idx]? with
  | none => exact trivial
  | some slot =>
    have hidx : idx < r.fields.length := (List.getElem?_eq_some_iff.mp hslot).1
    have hidx' : idx < doc.fields.length := hfields.length ▸ hidx
    have hx := List.getElem?_eq_getElem hidx'
    have hshows := hfields.shows idx slot _ hslot hx (by rw [hframes]; nofun)
    rw [hstored] at hshows
    have hready : (⟨slot.content, slot.isSet, .scalar, .field idx⟩ : Frame V).Ready D
        doc.fields[idx] := by
      refine ⟨⟨hshows.isSet, trivial, nofun, nofun⟩, trivial, ?_⟩
      rw [Frame.contents_scalar rfl]
      exact hshows.contents
    refine ⟨⟨doc.fields, [⟨doc.fields[idx], .field idx⟩]⟩, ?_, ?_, ?_, ?_, ?_, ?_⟩
    · simp only [Document.beginField, hdrafts, hx, Option.map_some]
    · refine .bottom ⟨idx, rfl, ?_, rfl, rfl⟩ hready.sound hready.contents
      rwa [List.length_set]
    · intro f hf
      cases hf
      trivial
    · intro r' hr'
      cases hr'
      refine ⟨?_, ?_, ?_, ?_⟩
      · rw [List.length_set, hfields.length]
      · intro i f hi
        rw [List.length_set]
        exact hfields.range i f hi
      · intro _ i hi
        cases hi
        exact hstored
      · intro i slot' x' hslot' hx' hne
        have hi : idx ≠ i := fun hi => hne rfl (congrArg some hi)
        rw [List.getElem?_set_ne hi] at hslot'
        exact hfields.shows i slot' x' hslot' hx' (by rw [hframes]; nofun)
    · nofun
    · intro hmode f hf
      rw [List.mem_singleton.mp hf]
      rfl

theorem beginNthField_simulates (h : Refines D p doc) (idx : ℕ) :
    Ensures Stop.IsError (fun p' => ∃ doc', doc.beginField idx = some doc' ∧ Refines D p' doc')
      (p.beginNthField idx) := by
  unfold Partial.beginNthField
  cases hframes : p.frames with
  | cons f below => exact trivial
  | nil =>
    cases hroot : p.root with
    | none => exact trivial
    | some r =>
      dsimp only
      cases hmode : p.mode with
      | strict =>
        exact h.enter_simulates hframes hroot (by rw [hmode]; rfl)
      | deferred startDepth storedFrames =>
        dsimp only
        cases hstored : storedFrames idx with
        | none => exact h.enter_simulates hframes hroot (by rw [hmode]; exact hstored)
        | some frame =>
          have hfields := h.fields r hroot
          rw [hmode] at hfields
          have hidx := hfields.range idx frame hstored
          have hidx' : idx < doc.fields.length := hfields.length ▸ hidx
          have hslot := List.getElem?_eq_getElem hidx
          have hx := List.getElem?_eq_getElem hidx'
          have hshows := hfields.shows idx _ _ hslot hx (by rw [hframes]; nofun)
          rw [FrameMode.stored, hstored] at hshows
          have hdrafts : doc.drafts = [] := (hframes ▸ h.stacked).eq_nil
          refine ⟨⟨doc.fields, [⟨doc.fields[idx], .field idx⟩]⟩, ?_, ?_, ?_, ?_, nofun, nofun⟩
          · simp only [Document.beginField, hdrafts, hx, Option.map_some]
          · exact .bottom ⟨idx, rfl, hidx, hshows.ownership, rfl⟩ hshows.ready.sound
              hshows.ready.contents
          · intro f hf
            cases hf
            exact hshows.ready.resting
          · intro r' hr'
            cases hr'
            refine ⟨hfields.length, ?_, ?_, ?_⟩
            · intro i f hi
              by_cases hne : i = idx
              · rwa [hne]
              · refine hfields.range i f ?_
                rwa [FrameMode.stored, Function.update_of_ne hne] at hi
            · intro _ i hi
              cases hi
              exact Function.update_self ..
            · intro i slot' x' hslot' hx' hne
              have hi : i ≠ idx := fun hi => hne rfl (congrArg some hi.symm)
              rw [FrameMode.stored, Function.update_of_ne hi]
              exact hfields.shows i slot' x' hslot' hx' (by rw [hframes]; nofun)

theorem beginDeferred_simulates (h : Refines D p doc) :
    Ensures Stop.IsError (fun p' => ∃ doc', some doc = some doc' ∧ Refines D p' doc')
      p.beginDeferred := by
  unfold Partial.beginDeferred
  cases hmode : p.mode with
  | deferred startDepth storedFrames => exact trivial
  | strict =>
    refine ⟨doc, rfl, h.stacked, h.resting, ?_, h.atRoot, nofun⟩
    intro r hr
    have hfields := h.fields r hr
    rwa [hmode] at hfields

theorem finishStored_ensures {r : StructFrame V} {building : Bool}
    {storedFrames : ℕ → Option (Frame V)} {fields : List (Option (Json S))}
    (h : FieldsShow D r building storedFrames fields) :
    Ensures Stop.IsError
      (fun r' => r'.currentChild = r.currentChild ∧
        FieldsShow D r' building (fun _ => none) fields)
      (Partial.finishStored D storedFrames r) := by
  unfold Partial.finishStored
  apply (ensures_mapM (R := fun e slot' => ∀ x, fields[e.2]? = some x →
    (building = true → r.currentChild ≠ some e.2) → SlotShows D slot' x) ?_).bind
  · intro slots hslots
    have hlength : slots.length = r.fields.length := by
      rw [← hslots.length_eq, List.length_zipIdx]
    refine ⟨rfl, h.length.trans hlength.symm, nofun, fun _ _ _ => rfl, ?_⟩
    intro idx slot' x hslot' hx hne
    obtain ⟨hidx, rfl⟩ := List.getElem?_eq_some_iff.mp hslot'
    have hzip : idx < r.fields.zipIdx.length := by rwa [List.length_zipIdx, ← hlength]
    have hget := hslots.get hzip hidx
    simp only [List.get_eq_getElem, List.getElem_zipIdx, Nat.zero_add] at hget
    exact hget x hx hne
  · rintro ⟨slot, idx⟩ hmem
    have hslot : r.fields[idx]? = some slot := List.mem_zipIdx_iff_getElem?.mp hmem
    dsimp only
    cases hstored : storedFrames idx with
    | none =>
      intro x hx hne
      have hshows := h.shows idx slot x hslot hx hne
      rwa [hstored] at hshows
    | some frame =>
      have hidx : idx < fields.length := h.length ▸ h.range idx frame hstored
      have hne : building = true → r.currentChild ≠ some idx := by
        intro hb hc
        rw [h.notStored hb idx hc] at hstored
        cases hstored
      have hshows := h.shows idx slot _ hslot (List.getElem?_eq_getElem hidx) hne
      rw [hstored] at hshows
      apply (Frame.requireFullInitialization_ensures hshows.ready.sound hshows.ready.contents).bind
      rintro frame' ⟨hcomplete, -, -⟩ x hx -
      obtain ⟨v, hv, hcontents⟩ := hcomplete.exists_data
      rw [List.getElem?_eq_getElem hidx] at hx
      cases hx
      exact ⟨by rw [hv]; rfl, by rw [hv, hcontents, Option.map_some]⟩

/-- The struct with its stored frames finalised stands for the same fields. -/
theorem finishRoot_ensures (h : Refines D p doc) {startDepth : ℕ}
    {storedFrames : ℕ → Option (Frame V)} (hmode : p.mode = .deferred startDepth storedFrames) :
    Ensures Stop.IsError
      (fun root => (root = none ↔ p.root = none) ∧
        (∀ o role, Grounded p.root o role → Grounded root o role) ∧
          ∀ r, root = some r → FieldsShow D r (!p.frames.isEmpty) (fun _ => none) doc.fields)
      (Partial.finishRoot D storedFrames p.root) := by
  unfold Partial.finishRoot
  cases hroot : p.root with
  | none => exact ⟨Iff.rfl, fun _ _ => id, nofun⟩
  | some r =>
    have hfields := h.fields r hroot
    rw [hmode] at hfields
    apply (finishStored_ensures hfields).map
    rintro r' ⟨hcurrent, hfields'⟩
    refine ⟨by simp, ?_, ?_⟩
    · rintro o role ⟨idx, hc, hidx, ho, hr⟩
      refine ⟨idx, hcurrent.trans hc, ?_, ho, hr⟩
      rwa [← hfields'.length, hfields.length]
    · intro r'' hr''
      cases hr''
      exact hfields'

theorem requireFields_ensures (r : StructFrame V) :
    Ensures Stop.IsError (fun _ => ∀ slot ∈ r.fields, slot.isSet = true)
      (Partial.requireFields r) := by
  unfold Partial.requireFields
  cases hfind : r.fields.findIdx? fun slot => !slot.isSet with
  | some idx => exact trivial
  | none =>
    intro slot hslot
    simpa using List.findIdx?_eq_none_iff.mp hfind slot hslot

theorem finishDeferred_simulates (h : Refines D p doc)
    (hperm : ∀ f ∈ p.frames.tail, f.pendingElements = []) :
    Ensures Stop.IsError (fun p' => ∃ doc', some doc = some doc' ∧ Refines D p' doc')
      (p.finishDeferred D) := by
  unfold Partial.finishDeferred
  cases hmode : p.mode with
  | strict => exact trivial
  | deferred startDepth storedFrames =>
    apply (h.finishRoot_ensures hmode).bind
    rintro root ⟨hnone, hgrounded, hfields⟩
    have hsome : p.root.isSome → root.isSome := by
      intro hs
      rw [Option.isSome_iff_ne_none] at hs ⊢
      exact fun hr => hs (hnone.mp hr)
    cases hframes : p.frames with
    | cons top below =>
      obtain ⟨d, rest, hdrafts, hready⟩ := h.top hframes
      dsimp only
      apply (Frame.requireFullInitialization_ensures hready.sound hready.contents).bind
      rintro top' ⟨hcomplete, hownership, -⟩
      have hstacked := h.stacked
      rw [hframes, hdrafts] at hstacked
      refine ⟨doc, rfl, ?_, ?_, ?_, ?_, ?_⟩
      · rw [hdrafts]
        exact (hstacked.replaceTop hownership hcomplete.ready.sound
          hcomplete.ready.contents).congr_root hgrounded hsome
      · intro f hf
        cases hf
        exact hcomplete.ready.resting
      · intro r hr
        have hfields' := hfields r hr
        rwa [hframes] at hfields'
      · intro hr f hf
        have hat := h.atRoot (hnone.mp hr)
        rw [hframes] at hat
        rcases List.mem_cons.mp hf with rfl | hf
        · exact ⟨hcomplete.pendingElements, hcomplete.pendingEntries⟩
        · exact hat f (List.mem_cons_of_mem _ hf)
      · intro _ f hf
        rw [hframes] at hperm
        rcases List.mem_cons.mp hf with rfl | hf
        · exact hcomplete.pendingElements
        · exact hperm f hf
    | nil =>
      have hempty : Refines D ⟨root, [], .strict⟩ doc := by
        have hstacked := h.stacked
        rw [hframes] at hstacked
        refine ⟨hstacked.congr_root hgrounded hsome, nofun, ?_, nofun, nofun⟩
        intro r hr
        have hfields' := hfields r hr
        rwa [hframes] at hfields'
      cases root with
      | none => exact ⟨doc, rfl, hempty⟩
      | some r =>
        apply (requireFields_ensures r).bind
        intro _ _
        exact ⟨doc, rfl, hempty⟩

end Refines

end Facet.Dynamic
