import Facet.Dynamic.Handover

/-!
# Partials stand for documents

A partial stands for a document: its frames for the drafts, the memory of the struct and the
stored frames for the fields. Every operation that meets its condition keeps this.
-/

namespace Facet.Dynamic

open GuardedRun

variable {S V F : Type}

/-- What the lowest frame of a dynamic value is. -/
def Grounded (root : Option (StructFrame V)) (ownership : FrameOwnership) (role : Role) : Prop :=
  match root with
  | none => ownership = .owned ∧ role = .root
  | some r => ∃ idx, r.currentChild = some idx ∧ idx < r.fields.length ∧
      ownership = .field idx ∧ role = .field idx

/-- The frames stand for the drafts. -/
inductive Stacked (D : DynamicType S V F) (root : Option (StructFrame V)) :
    List (Frame V) → List (Draft S) → Prop
  | empty : root.isSome → Stacked D root [] []
  | bottom {f : Frame V} {d : Draft S} : Grounded root f.ownership d.role → f.Sound D →
      f.contents D = d.value → Stacked D root [f] [d]
  | above {f g : Frame V} {fs : List (Frame V)} {d e : Draft S} {ds : List (Draft S)} :
      Frame.Linked D g f.ownership d.role → f.Sound D → f.contents D = d.value →
      Stacked D root (g :: fs) (e :: ds) → Stacked D root (f :: g :: fs) (d :: e :: ds)

namespace Stacked

variable {D : DynamicType S V F} {root root' : Option (StructFrame V)} {f : Frame V}
  {fs : List (Frame V)} {ds : List (Draft S)}

theorem exists_draft (h : Stacked D root (f :: fs) ds) :
    ∃ d rest, ds = d :: rest ∧ f.Sound D ∧ f.contents D = d.value := by
  cases h with
  | bottom _ hsound hcontents => exact ⟨_, _, rfl, hsound, hcontents⟩
  | above _ hsound hcontents _ => exact ⟨_, _, rfl, hsound, hcontents⟩

theorem eq_nil (h : Stacked D root [] ds) : ds = [] := by
  cases h
  rfl

theorem replaceTop {d : Draft S} (h : Stacked D root (f :: fs) (d :: ds)) {f' : Frame V}
    {x : Option (Json S)} (hownership : f'.ownership = f.ownership) (hsound : f'.Sound D)
    (hcontents : f'.contents D = x) :
    Stacked D root (f' :: fs) ({ d with value := x } :: ds) := by
  cases h with
  | bottom hgrounded _ _ => exact .bottom (hownership ▸ hgrounded) hsound hcontents
  | above hlinked _ _ hbelow => exact .above (hownership ▸ hlinked) hsound hcontents hbelow

theorem congr_root (hroot : ∀ o role, Grounded root o role → Grounded root' o role)
    (hsome : root.isSome → root'.isSome) (h : Stacked D root fs ds) : Stacked D root' fs ds := by
  induction h with
  | empty hr => exact .empty (hsome hr)
  | bottom hgrounded hsound hcontents => exact .bottom (hroot _ _ hgrounded) hsound hcontents
  | above hlinked hsound hcontents _ ih => exact .above hlinked hsound hcontents ih

theorem grounded (h : Stacked D root fs ds) (hne : fs ≠ []) :
    ∃ o role, Grounded root o role := by
  induction h with
  | empty => exact absurd rfl hne
  | bottom hgrounded _ _ => exact ⟨_, _, hgrounded⟩
  | above _ _ _ _ ih => exact ih (List.cons_ne_nil _ _)

end Stacked

/-- A field without a stored frame: its bit says whether its memory holds a value. -/
structure SlotShows (D : DynamicType S V F) (slot : FieldSlot V) (x : Option (Json S)) :
    Prop where
  isSet : slot.isSet = slot.content.isSome
  contents : slot.content.map D.view = x

/-- A field with a stored frame: the frame stands for it, in the memory of the field. -/
structure StoredShows (D : DynamicType S V F) (idx : ℕ) (f : Frame V) (slot : FieldSlot V)
    (x : Option (Json S)) : Prop where
  ready : f.Ready D x
  ownership : f.ownership = .field idx
  isSet : slot.isSet = true
  content : slot.content = f.data

def FieldShows (D : DynamicType S V F) (stored : Option (Frame V)) (idx : ℕ)
    (slot : FieldSlot V) (x : Option (Json S)) : Prop :=
  match stored with
  | some f => StoredShows D idx f slot x
  | none => SlotShows D slot x

/-- The struct stands for the fields, except for the one that is being built. -/
structure FieldsShow (D : DynamicType S V F) (r : StructFrame V) (building : Bool)
    (stored : ℕ → Option (Frame V)) (fields : List (Option (Json S))) : Prop where
  length : fields.length = r.fields.length
  range : ∀ idx f, stored idx = some f → idx < r.fields.length
  notStored : building = true → ∀ idx, r.currentChild = some idx → stored idx = none
  shows : ∀ idx slot x, r.fields[idx]? = some slot → fields[idx]? = some x →
    (building = true → r.currentChild ≠ some idx) → FieldShows D (stored idx) idx slot x

/-- What a partial stands for. Items are only pending in deferred mode below a struct. -/
structure Refines (D : DynamicType S V F) (p : Partial V) (doc : Document S) : Prop where
  stacked : Stacked D p.root p.frames doc.drafts
  resting : ∀ f, p.frames.head? = some f → f.Resting
  fields : ∀ r, p.root = some r → FieldsShow D r (!p.frames.isEmpty) p.mode.stored doc.fields
  atRoot : p.root = none → ∀ f ∈ p.frames, f.pendingElements = [] ∧ f.pendingEntries = []
  strict : p.mode = .strict → ∀ f ∈ p.frames, f.pendingElements = []

namespace DynamicType

variable (D : DynamicType S V F)

/-- When an operation keeps to the contracts and to the meaning of the operations. -/
def Permitted (p : Partial V) : Op V F → Prop
  | .initList => ∀ f, p.frames.head? = some f → f.InitListPermitted D
  | .initMap => ∀ f, p.frames.head? = some f → f.InitMapPermitted D
  | .set src => ∀ f, p.frames.head? = some f → f.SetPermitted src
  | .beginObjectEntry key => ∀ f, p.frames.head? = some f → f.EntryPermitted D key
  | .finishDeferred => ∀ f ∈ p.frames.tail, f.pendingElements = []
  | _ => True

end DynamicType

/-- `build` finds no stored frame: no field was ended in deferred mode since it was begun. -/
def Partial.BuildPermitted (p : Partial V) : Prop := ∀ idx, p.mode.stored idx = none

variable {D : DynamicType S V F} {p : Partial V} {doc : Document S}

namespace Refines

theorem top (h : Refines D p doc) {f : Frame V} {below : List (Frame V)}
    (hframes : p.frames = f :: below) :
    ∃ d rest, doc.drafts = d :: rest ∧ f.Ready D d.value := by
  have hstacked := h.stacked
  rw [hframes] at hstacked
  obtain ⟨d, rest, hdrafts, hsound, hcontents⟩ := hstacked.exists_draft
  exact ⟨d, rest, hdrafts, hsound, h.resting f (by rw [hframes]; rfl), hcontents⟩

theorem onTop {op : Frame V → Except Stop (Frame V)}
    {edit : Option (Json S) → Option (Json S)} (h : Refines D p doc)
    (hop : ∀ f x, p.frames.head? = some f → f.Ready D x →
      Ensures Stop.IsError (fun g => ∃ j, edit x = some j ∧ g.Ready D (some j) ∧ f.Follows g)
        (op f)) :
    Ensures Stop.IsError (fun p' => ∃ doc', doc.edit edit = some doc' ∧ Refines D p' doc')
      (p.onTop op) := by
  unfold Partial.onTop
  cases hframes : p.frames with
  | nil => exact trivial
  | cons f below =>
    obtain ⟨d, rest, hdrafts, hready⟩ := h.top hframes
    dsimp only
    apply (hop f d.value (by rw [hframes]; rfl) hready).bind
    rintro g ⟨j, hj, hg, hfollows⟩
    refine ⟨{ doc with drafts := { d with value := some j } :: rest }, ?_, ?_, ?_, ?_, ?_, ?_⟩
    · simp only [Document.edit, hdrafts, hj, Option.map_some]
    · have hstacked := h.stacked
      rw [hframes, hdrafts] at hstacked
      exact hstacked.replaceTop hfollows.ownership hg.sound hg.contents
    · intro f' hf'
      cases hf'
      exact hg.resting
    · intro r hr
      have hfields := h.fields r hr
      rwa [hframes] at hfields
    · intro hroot f' hf'
      have hat := h.atRoot hroot
      rw [hframes] at hat
      rcases List.mem_cons.mp hf' with rfl | hf'
      · obtain ⟨helements, hentries⟩ := hat f (List.mem_cons_self ..)
        exact ⟨hfollows.pendingElements helements, hfollows.pendingEntries hentries⟩
      · exact hat f' (List.mem_cons_of_mem _ hf')
    · intro hmode f' hf'
      have hstrict := h.strict hmode
      rw [hframes] at hstrict
      rcases List.mem_cons.mp hf' with rfl | hf'
      · exact hfollows.pendingElements (hstrict f (List.mem_cons_self ..))
      · exact hstrict f' (List.mem_cons_of_mem _ hf')

theorem onPush {op : Frame V → Except Stop (Frame V × Frame V)}
    {begin : Option (Json S) → Option (Draft S)} (h : Refines D p doc)
    (hop : ∀ f x, p.frames.head? = some f → f.Ready D x →
      Ensures Stop.IsError (fun r => ∃ d, begin x = some d ∧ f.Opens D x d.value d.role r ∧
        r.1.pendingElements = [] ∧ r.1.pendingEntries = []) (op f)) :
    Ensures Stop.IsError (fun p' => ∃ doc', doc.push begin = some doc' ∧ Refines D p' doc')
      (p.onPush op) := by
  unfold Partial.onPush
  cases hframes : p.frames with
  | nil => exact trivial
  | cons f below =>
    obtain ⟨d, rest, hdrafts, hready⟩ := h.top hframes
    dsimp only
    apply (hop f d.value (by rw [hframes]; rfl) hready).bind
    rintro ⟨child, parent⟩ ⟨draft, hdraft, hopens, helements, hentries⟩
    refine ⟨{ doc with drafts := draft :: doc.drafts }, ?_, ?_, ?_, ?_, ?_, ?_⟩
    · simp only [Document.push, hdrafts, hdraft, Option.map_some]
    · have hstacked := h.stacked
      rw [hframes, hdrafts] at hstacked
      have hbelow := hstacked.replaceTop hopens.follows.ownership hopens.sound hopens.contents
      rw [hdrafts]
      exact .above hopens.linked hopens.child.sound hopens.child.contents hbelow
    · intro f' hf'
      cases hf'
      exact hopens.child.resting
    · intro r hr
      have hfields := h.fields r hr
      rwa [hframes] at hfields
    · intro hroot f' hf'
      have hat := h.atRoot hroot
      rw [hframes] at hat
      rcases List.mem_cons.mp hf' with rfl | hf'
      · exact ⟨helements, hentries⟩
      rcases List.mem_cons.mp hf' with rfl | hf'
      · obtain ⟨hpe, hpn⟩ := hat f (List.mem_cons_self ..)
        exact ⟨hopens.follows.pendingElements hpe, hopens.follows.pendingEntries hpn⟩
      · exact hat f' (List.mem_cons_of_mem _ hf')
    · intro hmode f' hf'
      have hstrict := h.strict hmode
      rw [hframes] at hstrict
      rcases List.mem_cons.mp hf' with rfl | hf'
      · exact helements
      rcases List.mem_cons.mp hf' with rfl | hf'
      · exact hopens.follows.pendingElements (hstrict f (List.mem_cons_self ..))
      · exact hstrict f' (List.mem_cons_of_mem _ hf')

end Refines

namespace Refines

/-- The two innermost frames and the drafts they stand for. -/
theorem pair (h : Refines D p doc) {child parent : Frame V} {rest : List (Frame V)}
    (hframes : p.frames = child :: parent :: rest) :
    ∃ d e ds, doc.drafts = d :: e :: ds ∧ child.Ready D d.value ∧
      Frame.Linked D parent child.ownership d.role ∧ parent.Sound D ∧
        parent.contents D = e.value ∧ Stacked D p.root (parent :: rest) (e :: ds) := by
  have hstacked := h.stacked
  obtain ⟨d, ds, hdrafts, hready⟩ := h.top hframes
  rw [hframes, hdrafts] at hstacked
  cases hstacked with
  | @above _ _ _ _ e ds hlinked hsound hcontents hbelow =>
    obtain ⟨_, _, heq, hpsound, hpcontents⟩ := hbelow.exists_draft
    cases heq
    exact ⟨d, e, ds, hdrafts, hready, hlinked, hpsound, hpcontents, hbelow⟩

theorem close (h : Refines D p doc) {child parent g : Frame V} {rest : List (Frame V)}
    (hframes : p.frames = child :: parent :: rest) {d e : Draft S} {ds : List (Draft S)}
    (hdrafts : doc.drafts = d :: e :: ds) (hbelow : Stacked D p.root (parent :: rest) (e :: ds))
    (haccepts : Frame.Accepts D e.value d.value d.role g)
    (hownership : g.ownership = parent.ownership)
    (helements : p.root = none ∨ p.mode = .strict → g.pendingElements = [])
    (hentries : p.root = none → g.pendingEntries = []) :
    ∃ doc', doc.finish = some doc' ∧ Refines D { p with frames := g :: rest } doc' := by
  obtain ⟨j, j', hj, haccept, hg⟩ := haccepts
  refine ⟨{ doc with drafts := { e with value := some j' } :: ds }, ?_, ?_, ?_, ?_, ?_, ?_⟩
  · obtain ⟨value, role⟩ := d
    obtain rfl : value = some j := hj
    simp only [Document.finish, hdrafts, haccept, Option.map_some]
  · exact hbelow.replaceTop hownership hg.sound hg.contents
  · intro f hf
    cases hf
    exact hg.resting
  · intro r hr
    have hfields := h.fields r hr
    rwa [hframes] at hfields
  · intro hroot f hf
    have hat := h.atRoot hroot
    rw [hframes] at hat
    rcases List.mem_cons.mp hf with rfl | hf
    · exact ⟨helements (.inl hroot), hentries hroot⟩
    · exact hat f (List.mem_cons_of_mem _ (List.mem_cons_of_mem _ hf))
  · intro hmode f hf
    have hstrict := h.strict hmode
    rw [hframes] at hstrict
    rcases List.mem_cons.mp hf with rfl | hf
    · exact helements (.inr hmode)
    · exact hstrict f (List.mem_cons_of_mem _ (List.mem_cons_of_mem _ hf))

/-- The lowest frame below a struct is that of the field being built. -/
theorem lowest (h : Refines D p doc) {child : Frame V} (hframes : p.frames = [child])
    {r : StructFrame V} (hroot : p.root = some r) :
    ∃ idx x, r.currentChild = some idx ∧ idx < r.fields.length ∧ child.ownership = .field idx ∧
      doc.drafts = [⟨x, .field idx⟩] ∧ child.Ready D x := by
  have hstacked := h.stacked
  obtain ⟨d, ds, hdrafts, hready⟩ := h.top hframes
  rw [hframes, hdrafts] at hstacked
  cases hstacked with
  | bottom hgrounded hsound hcontents =>
    rw [hroot] at hgrounded
    obtain ⟨idx, hcurrent, hidx, hownership, hrole⟩ := hgrounded
    obtain ⟨value, role⟩ := d
    obtain rfl : role = .field idx := hrole
    exact ⟨idx, value, hcurrent, hidx, hownership, hdrafts, hready⟩

theorem fields_closed (h : Refines D p doc) {r : StructFrame V} (hroot : p.root = some r) {idx : ℕ} (hcurrent : r.currentChild = some idx)
    (hidx : idx < r.fields.length) {slot : FieldSlot V} {x : Option (Json S)}
    {stored : ℕ → Option (Frame V)} (hstored : ∀ i, i ≠ idx → stored i = p.mode.stored i)
    (hshows : FieldShows D (stored idx) idx slot x) :
    FieldsShow D ⟨r.fields.set idx slot, none⟩ false stored (doc.fields.set idx x) := by
  have hfields := h.fields r hroot
  refine ⟨?_, ?_, nofun, ?_⟩
  · rw [List.length_set, List.length_set, hfields.length]
  · intro i f hi
    rw [List.length_set]
    by_cases hne : i = idx
    · rwa [hne]
    · exact hfields.range i f (hstored i hne ▸ hi)
  · intro i slot' x' hslot hx _
    by_cases hne : i = idx
    · subst hne
      rw [List.getElem?_set_self hidx] at hslot
      rw [List.getElem?_set_self (hfields.length ▸ hidx)] at hx
      cases hslot
      cases hx
      exact hshows
    · rw [List.getElem?_set_ne (Ne.symm hne)] at hslot hx
      rw [hstored i hne]
      refine hfields.shows i slot' x' hslot hx fun _ hc => hne ?_
      exact Option.some.inj (hc.symm.trans hcurrent)

theorem popFrame_simulates (h : Refines D p doc) {child child' : Frame V}
    {below : List (Frame V)} (hframes : p.frames = child :: below) (hdepth : 1 < p.depth)
    (himmediate : p.root = none ∨ p.mode = .strict)
    (hownership : child'.ownership = child.ownership)
    (hchild : ∀ x, child.Ready D x → child'.Sound D ∧ child'.contents D = x)
    (hce : child'.pendingElements = []) (hcn : child'.pendingEntries = [])
    (hinit : p.root.isSome → child'.isInit = true) :
    Ensures Stop.IsError (fun p' => ∃ doc', doc.finish = some doc' ∧ Refines D p' doc')
      (p.popFrame D child' below) := by
  unfold Partial.popFrame
  cases below with
  | cons parent rest =>
    obtain ⟨d, e, ds, hdrafts, hready, hlinked, hsound, hcontents, hbelow⟩ := h.pair hframes
    obtain ⟨hcsound, hccontents⟩ := hchild _ hready
    have hparent : parent.pendingElements = [] := by
      rcases himmediate with hroot | hmode
      · exact (h.atRoot hroot parent (by rw [hframes]; simp)).1
      · exact h.strict hmode parent (by rw [hframes]; simp)
    dsimp only
    rw [← hownership] at hlinked
    apply (Frame.receive_ensures hsound hcontents hlinked hparent hcsound hccontents hce hcn).bind
    rintro g ⟨haccepts, hfollows⟩
    refine h.close hframes hdrafts hbelow haccepts hfollows.ownership ?_ ?_
    · intro _
      exact hfollows.pendingElements hparent
    · intro hroot
      exact hfollows.pendingEntries (h.atRoot hroot parent (by rw [hframes]; simp)).2
  | nil =>
    cases hroot : p.root with
    | none =>
      rw [Partial.depth, hroot, hframes] at hdepth
      simp at hdepth
    | some r =>
      have hmode : p.mode = .strict := himmediate.resolve_left (by rw [hroot]; nofun)
      obtain ⟨idx, x, hcurrent, hidx, howner, hdrafts, hready⟩ := h.lowest hframes hroot
      obtain ⟨hcsound, hccontents⟩ := hchild _ hready
      obtain ⟨v, hv⟩ := Option.isSome_iff_exists.mp (hcsound.init ▸ hinit (by rw [hroot]; rfl))
      rw [Frame.contents_of_settled hce hcn, hv, Option.map_some] at hccontents
      subst hccontents
      have hclosed : Partial.closeField r child' = ⟨r.fields.set idx ⟨child'.data, true⟩, none⟩ := by
        rw [Partial.closeField, hownership, howner]
      have hstored : ∀ i, p.mode.stored i = none := by
        intro i
        rw [hmode]
        rfl
      refine ⟨⟨doc.fields.set idx (some (D.view v)), []⟩, ?_, .empty rfl, nofun, ?_, nofun, ?_⟩
      · simp only [Document.finish, hdrafts]
      · intro r' hr'
        cases hr'
        dsimp only
        rw [hclosed]
        refine h.fields_closed hroot hcurrent hidx (fun i _ => rfl) ?_
        rw [hstored]
        exact ⟨by rw [hv]; rfl, by rw [hv, Option.map_some]⟩
      · nofun

end Refines

end Facet.Dynamic
