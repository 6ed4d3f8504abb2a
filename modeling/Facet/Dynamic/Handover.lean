import Facet.Dynamic.Operations

/-!
# Ending a frame

What the frame below becomes when the one above it is popped: it accepts the value, at once or
among its pending items.
-/

namespace Facet.Dynamic

open GuardedRun

variable {S V F : Type} {D : DynamicType S V F}

namespace Frame

variable {parent child : Frame V} {x y : Option (Json S)} {role : Role}

/-- The parent has accepted what the child stood for. -/
def Accepts (D : DynamicType S V F) (x y : Option (Json S)) (role : Role) (g : Frame V) : Prop :=
  ∃ j j', y = some j ∧ Document.accept x role j = some j' ∧ g.Ready D (some j')

theorem Sound.exists_object {state : DynamicObjectInsertState} {pending : List (String × V)}
    (h : parent.Sound D) (htracker : parent.tracker = .dynamicValue (.object state pending)) :
    ∃ v es, parent.data = some v ∧ D.view v = .object es ∧ (pending.map Prod.fst).Nodup ∧
      (∀ e ∈ pending, es e.1 = none) ∧
        ∀ key, state = .buildingValue key → overlay D es pending key = none := by
  have hfits := h.fits
  rwa [htracker] at hfits

theorem Sound.exists_array {building : Bool} {pending : List V}
    (h : parent.Sound D) (htracker : parent.tracker = .dynamicValue (.array building pending)) :
    ∃ v xs, parent.data = some v ∧ D.view v = .array xs := by
  have hfits := h.fits
  rwa [htracker] at hfits

/-- The value of a borrowed frame goes back to where it is kept. -/
theorem writeBack_ensures {slot : Slot} (hparent : parent.Sound D) (hx : parent.contents D = x)
    (hlinked : Linked D parent (.borrowedInPlace slot) role) (v : V) :
    Ensures Stop.IsError
      (fun g => Accepts D x (some (D.view v)) role g ∧ parent.Follows g ∧
        ∃ pending, g.tracker = .dynamicValue (.object .idle pending))
      (parent.writeBack D slot v) := by
  cases slot with
  | pending index =>
    obtain ⟨pending, key, w, htracker, hindex, rfl⟩ := hlinked
    obtain ⟨o, es, hdata, hview, hnodup, hnew, -⟩ := hparent.exists_object htracker
    rw [contents_object hdata hview htracker] at hx
    unfold writeBack
    rw [htracker]
    have hkeys : ∀ e ∈ pending.modify index fun e => (e.1, v), es e.1 = none := by
      intro e he
      have hmem : e.1 ∈ pending.map Prod.fst := by
        rw [← map_fst_modify pending index v]
        exact List.mem_map_of_mem he
      obtain ⟨e', he', hkey⟩ := List.mem_map.mp hmem
      rw [← hkey]
      exact hnew e' he'
    refine ⟨⟨_, _, rfl, by rw [← hx]; rfl, ⟨hparent.init, ⟨o, es, hdata, hview, ?_, hkeys, nofun⟩,
      hparent.borrowed, nofun⟩, rfl, ?_⟩, ⟨rfl, fun _ => rfl, ?_⟩, _, rfl⟩
    · rwa [map_fst_modify]
    · rw [← overlay_modify hnodup hindex v]
      exact contents_object hdata hview rfl
    · intro hentries
      rw [pendingEntries, htracker] at hentries
      obtain rfl : pending = [] := hentries
      cases index <;> rfl
  | entry key =>
    obtain ⟨pending, get, o, htracker, hget, hdata, hsome, hnotMem, rfl⟩ := hlinked
    obtain ⟨o', es, hdata', hview, hnodup, hnew, -⟩ := hparent.exists_object htracker
    cases hdata.symm.trans hdata'
    rw [contents_object hdata hview htracker] at hx
    obtain ⟨⟨w, put⟩, hres⟩ := Option.isSome_iff_exists.mp hsome
    obtain ⟨-, hput⟩ := D.objectGetMut_some get hget o key es w put hview hres
    have hobject : (D.view o).isObject = true := by rw [hview, Json.isObject_object]
    have hcall : D.callObjectGetMut parent.data key = .ok (some (w, put)) := by
      unfold DynamicType.callObjectGetMut
      rw [hget, hdata]
      dsimp only
      rw [if_pos hobject, hres]
    have hkeys : ∀ e ∈ pending, Function.update es key (some (D.view v)) e.1 = none := by
      intro e he
      have hne : e.1 ≠ key := fun h => hnotMem (h ▸ List.mem_map_of_mem he)
      rw [Function.update_of_ne hne]
      exact hnew e he
    unfold writeBack
    dsimp only
    rw [hcall]
    refine ⟨⟨_, _, rfl, by rw [← hx]; rfl, ⟨?_, ?_, hparent.borrowed, ?_⟩, ?_, ?_⟩,
      ⟨rfl, id, id⟩, pending, htracker⟩
    · exact hparent.init.trans (by rw [hdata]; rfl)
    · rw [htracker]
      exact ⟨put v, _, rfl, hput v, hnodup, hkeys, nofun⟩
    · intro hscalar
      rw [htracker] at hscalar
      cases hscalar
    · rw [Resting, htracker]
    · rw [← overlay_update hnotMem]
      exact contents_object rfl (hput v) htracker

theorem absorb_ensures (hparent : parent.Sound D) (hx : parent.contents D = x)
    (hlinked : Linked D parent .owned role) (helements : parent.pendingElements = [])
    (hchild : child.Sound D) (hy : child.contents D = y) (hce : child.pendingElements = [])
    (hcn : child.pendingEntries = []) :
    Ensures Stop.IsError (fun g => Accepts D x y role g ∧ parent.Follows g)
      (parent.absorb D child) := by
  rw [contents_of_settled hce hcn] at hy
  unfold absorb
  cases htracker : parent.tracker with
  | scalar => exact absurd hlinked (by rw [Linked, htracker]; exact id)
  | dynamicValue state =>
    cases state with
    | array building pending =>
      cases building with
      | false => exact absurd hlinked (by rw [Linked, htracker]; exact id)
      | true =>
        obtain rfl : role = .element := by rwa [Linked, htracker] at hlinked
        obtain rfl : pending = [] := by rwa [pendingElements, htracker] at helements
        obtain ⟨a, xs, hdata, hview⟩ := hparent.exists_array htracker
        rw [contents_array hdata hview htracker, List.map_nil, List.append_nil] at hx
        cases hinit : child.isInit with
        | false => exact trivial
        | true =>
          obtain ⟨v, hv⟩ := Option.isSome_iff_exists.mp (hchild.init ▸ hinit)
          have hpush := D.view_pushArrayElement a v xs hview
          have hcall : D.callPushArrayElement parent.data v =
              .ok (D.vtable.pushArrayElement a v) := by
            rw [hdata, DynamicType.callPushArrayElement, hview, if_pos (Json.isArray_array xs)]
          have hvalue : child.value = .ok v := by rw [Frame.value, hv]
          dsimp only
          rw [if_pos rfl, hvalue]
          dsimp only [bind, Except.bind]
          rw [hcall]
          rw [hv] at hy
          refine ⟨⟨D.view v, _, hy.symm, by rw [← hx]; rfl,
            ⟨?_, ⟨_, _, rfl, hpush⟩, hparent.borrowed, fun h => by cases h⟩, rfl, ?_⟩, rfl,
            fun _ => rfl, fun _ => rfl⟩
          · exact hparent.init.trans (by rw [hdata]; rfl)
          · rw [contents_array rfl hpush rfl, List.map_nil, List.append_nil]
    | object state pending =>
      cases state with
      | idle => exact absurd hlinked (by rw [Linked, htracker]; exact id)
      | buildingValue key =>
        obtain rfl : role = .entry key := by rwa [Linked, htracker] at hlinked
        obtain ⟨o, es, hdata, hview, hnodup, hnew, hkey⟩ := hparent.exists_object htracker
        rw [contents_object hdata hview htracker] at hx
        have hnotMem := notMem_of_overlay_eq_none hnodup (hkey key rfl)
        have hnone : es key = none := (overlay_of_notMem hnotMem).symm.trans (hkey key rfl)
        cases hinit : child.isInit with
        | false => exact trivial
        | true =>
          obtain ⟨v, hv⟩ := Option.isSome_iff_exists.mp (hchild.init ▸ hinit)
          have hinsert := D.view_insertObjectEntry o key v es hview hnone
          have hcall : D.callInsertObjectEntry parent.data key v =
              .ok (D.vtable.insertObjectEntry o key v) := by
            rw [hdata, DynamicType.callInsertObjectEntry, hview, if_pos (Json.isObject_object es)]
          have hvalue : child.value = .ok v := by rw [Frame.value, hv]
          have hkeys : ∀ e ∈ pending, Function.update es key (some (D.view v)) e.1 = none := by
            intro e he
            have hne : e.1 ≠ key := fun h => hnotMem (h ▸ List.mem_map_of_mem he)
            rw [Function.update_of_ne hne]
            exact hnew e he
          dsimp only
          rw [if_pos rfl, hvalue]
          dsimp only [bind, Except.bind]
          rw [hcall]
          rw [hv] at hy
          refine ⟨⟨D.view v, _, hy.symm, by rw [← hx]; rfl,
            ⟨?_, ⟨_, _, rfl, hinsert, hnodup, hkeys, fun _ h => by cases h⟩, hparent.borrowed,
              fun h => by cases h⟩, rfl, ?_⟩, rfl, fun _ => rfl, ?_⟩
          · exact hparent.init.trans (by rw [hdata]; rfl)
          · rw [contents_object rfl hinsert rfl, overlay_update hnotMem]
          · intro hentries
            rwa [pendingEntries, htracker] at hentries
    | uninit => exact absurd hlinked (by rw [Linked, htracker]; exact id)
    | scalar => exact absurd hlinked (by rw [Linked, htracker]; exact id)

theorem takeBack_ensures (hparent : parent.Sound D) (hx : parent.contents D = x)
    (hlinked : Linked D parent child.ownership role) (hborrowed : child.ownership.isBorrowed = true)
    (hchild : child.Sound D) (hy : child.contents D = y) :
    Ensures Stop.IsError
      (fun r => Accepts D x y role r.1 ∧ parent.Follows r.1 ∧
        ∃ pending, r.1.tracker = .dynamicValue (.object .idle pending))
      (parent.takeBack D child) := by
  unfold takeBack
  cases hownership : child.ownership with
  | owned => rw [hownership] at hborrowed; cases hborrowed
  | field idx => rw [hownership] at hborrowed; cases hborrowed
  | borrowedInPlace slot =>
    rw [hownership] at hlinked
    apply (requireFullInitialization_ensures hchild hy).bind
    rintro g ⟨hg, -, -⟩
    obtain ⟨v, hvalue, rfl⟩ := hg.value
    rw [hvalue]
    apply (writeBack_ensures hparent hx hlinked v).bind
    intro parent' hparent'
    exact hparent'

theorem absorb_of_idle {pending : List (String × V)}
    (h : parent.tracker = .dynamicValue (.object .idle pending)) :
    parent.absorb D child = .ok parent := by
  unfold absorb
  rw [h]

/-- A frame popped above another dynamic value and not stored. -/
theorem receive_ensures (hparent : parent.Sound D) (hx : parent.contents D = x)
    (hlinked : Linked D parent child.ownership role) (helements : parent.pendingElements = [])
    (hchild : child.Sound D) (hy : child.contents D = y) (hce : child.pendingElements = [])
    (hcn : child.pendingEntries = []) :
    Ensures Stop.IsError (fun g => Accepts D x y role g ∧ parent.Follows g)
      (parent.receive D child) := by
  unfold receive
  cases hownership : child.ownership with
  | owned =>
    rw [hownership] at hlinked
    have htake : parent.takeBack D child = .ok (parent, child) := by
      rw [takeBack, hownership]
    dsimp only
    rw [htake]
    exact absorb_ensures hparent hx hlinked helements hchild hy hce hcn
  | field idx =>
    rw [hownership] at hlinked
    exact hlinked.elim
  | borrowedInPlace slot =>
    have hborrowed : child.ownership.isBorrowed = true := by rw [hownership]; rfl
    apply (takeBack_ensures hparent hx hlinked hborrowed hchild hy).bind
    rintro ⟨parent', child'⟩ ⟨haccepts, hfollows, pending, htracker⟩
    dsimp only
    rw [absorb_of_idle htracker]
    exact ⟨haccepts, hfollows⟩

/-- A frame popped in deferred mode below a struct: the value waits. -/
theorem receivePending_ensures (hparent : parent.Sound D) (hx : parent.contents D = x)
    (hlinked : Linked D parent child.ownership role) (hchild : child.Sound D)
    (hy : child.contents D = y) :
    Ensures Stop.IsError
      (fun r => ∃ g, r = some g ∧ Accepts D x y role g ∧ g.ownership = parent.ownership)
      (parent.receivePending D child) := by
  unfold receivePending
  cases hownership : child.ownership with
  | field idx =>
    rw [hownership] at hlinked
    exact hlinked.elim
  | borrowedInPlace slot =>
    have hborrowed : child.ownership.isBorrowed = true := by rw [hownership]; rfl
    apply (takeBack_ensures hparent hx hlinked hborrowed hchild hy).bind
    rintro ⟨parent', child'⟩ ⟨haccepts, hfollows, -⟩
    exact ⟨parent', rfl, haccepts, hfollows.ownership⟩
  | owned =>
    rw [hownership] at hlinked
    cases htracker : parent.tracker with
    | scalar => exact absurd hlinked (by rw [Linked, htracker]; exact id)
    | dynamicValue state =>
      cases state with
      | array building pending =>
        cases building with
        | false => exact absurd hlinked (by rw [Linked, htracker]; exact id)
        | true =>
          obtain rfl : role = .element := by rwa [Linked, htracker] at hlinked
          obtain ⟨a, xs, hdata, hview⟩ := hparent.exists_array htracker
          rw [contents_array hdata hview htracker] at hx
          apply (requireFullInitialization_ensures hchild hy).bind
          rintro child' ⟨hcomplete, -, -⟩
          obtain ⟨v, hvalue, rfl⟩ := hcomplete.value
          rw [hvalue]
          refine ⟨_, rfl, ⟨D.view v, _, rfl, by rw [← hx]; rfl, ⟨hparent.init,
            ⟨a, xs, hdata, hview⟩, hparent.borrowed, nofun⟩, rfl, ?_⟩, rfl⟩
          rw [List.append_assoc, ← List.map_singleton, ← List.map_append]
          exact contents_array hdata hview rfl
      | object state pending =>
        cases state with
        | idle => exact absurd hlinked (by rw [Linked, htracker]; exact id)
        | buildingValue key =>
          obtain rfl : role = .entry key := by rwa [Linked, htracker] at hlinked
          obtain ⟨o, es, hdata, hview, hnodup, hnew, hkey⟩ := hparent.exists_object htracker
          rw [contents_object hdata hview htracker] at hx
          have hnotMem := notMem_of_overlay_eq_none hnodup (hkey key rfl)
          have hnone : es key = none := (overlay_of_notMem hnotMem).symm.trans (hkey key rfl)
          apply (requireFullInitialization_ensures hchild hy).bind
          rintro child' ⟨hcomplete, -, -⟩
          obtain ⟨v, hvalue, rfl⟩ := hcomplete.value
          rw [hvalue]
          have hnodup' : ((pending ++ [(key, v)]).map Prod.fst).Nodup := by
            rw [List.map_append, List.nodup_append]
            refine ⟨hnodup, List.nodup_singleton _, ?_⟩
            rintro k hk _ hk' rfl
            obtain rfl : k = key := List.mem_singleton.mp hk'
            exact hnotMem hk
          have hnew' : ∀ e ∈ pending ++ [(key, v)], es e.1 = none := by
            intro e he
            rcases List.mem_append.mp he with he | he
            · exact hnew e he
            · rw [List.mem_singleton.mp he]
              exact hnone
          refine ⟨_, rfl, ⟨D.view v, _, rfl, by rw [← hx]; rfl, ⟨hparent.init,
            ⟨o, es, hdata, hview, hnodup', hnew', nofun⟩, hparent.borrowed, nofun⟩, rfl, ?_⟩, rfl⟩
          rw [← overlay_append D es pending (key, v)]
          exact contents_object hdata hview rfl
      | uninit => exact absurd hlinked (by rw [Linked, htracker]; exact id)
      | scalar => exact absurd hlinked (by rw [Linked, htracker]; exact id)

end Frame

end Facet.Dynamic
