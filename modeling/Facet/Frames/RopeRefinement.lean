import Facet.Frames.Rope
import Facet.Lib.ExceptList

/-!
# The chunked rope and the slots of the frames

A rope is used by handing out slots, writing to the slots that have been handed out, and counting
the initialised ones, while the rest of the program allocates and writes elsewhere. Whatever the
order, the chunked rope is then the rope that the frames see: the slots keep their addresses, they
are apart from each other and from everything else, and what is moved out in the end is what was
written, in the order of the slots.
-/

namespace Facet.Frames.Rope

open Blocks

/-- The rope of the frames, with what was last written to each slot. -/
structure RopeModel where
  rope : Frames.ListRope ℕ
  contents : List (Option (List UInt8))

namespace RopeModel

variable (m : RopeModel)

def empty : RopeModel := ⟨⟨[], 0⟩, []⟩

def push (slot : ℕ) : RopeModel :=
  ⟨{ m.rope with slots := m.rope.slots ++ [slot] }, m.contents ++ [none]⟩

def mark : RopeModel := { m with rope := m.rope.markLastInitialized }

def write (i : ℕ) (bytes : List UInt8) : RopeModel := { m with contents := m.contents.set i bytes }

end RopeModel

namespace ListRope

variable (rope : ListRope)

def chunkBlock (chunk : ℕ) : Block := ⟨chunk, rope.elementLayout.size * rope.elementsPerChunk⟩

def blocks : List Block := rope.chunks.map rope.chunkBlock

/-- The chunks are among the allocated blocks, each once, and these are apart. -/
structure Allocated (world : World) : Prop where
  disjoint : world.live.Pairwise Block.Disjoint
  live : ∃ others, world.live.Perm (rope.blocks ++ others)

/-- Everything but the chunks may change, and the chunks stay allocated. -/
structure LeavesAlone (world world' : World) : Prop where
  allocated : rope.Allocated world'
  bytes : ∀ block ∈ rope.blocks, AgreeOn block world.mem world'.mem

end ListRope

/-- The uses of a rope, in any order, beside the rest of the program. -/
inductive Reaches (allocator : Allocator) : ListRope → World → RopeModel → Prop
  | new {layout : Layout} {elementsPerChunk : ℕ} {rope : ListRope} {world : World} :
    ListRope.withChunkCapacity layout elementsPerChunk = .ok rope →
    world.live.Pairwise Block.Disjoint → Reaches allocator rope world .empty
  | push {rope rope' : ListRope} {world world' : World} {m : RopeModel} {slot : ℕ} :
    Reaches allocator rope world m → rope.pushUninit allocator world = .ok (slot, rope', world') →
    Reaches allocator rope' world' (m.push slot)
  | mark {rope rope' : ListRope} {world : World} {m : RopeModel} :
    Reaches allocator rope world m → rope.markLastInitialized = .ok rope' →
    Reaches allocator rope' world m.mark
  | write {rope : ListRope} {world : World} {m : RopeModel} {i slot : ℕ} {bytes : List UInt8} :
    Reaches allocator rope world m → m.rope.slots[i]? = some slot →
    bytes.length = rope.elementLayout.size →
    Reaches allocator rope { world with mem := Blocks.write world.mem slot bytes } (m.write i bytes)
  | elsewhere {rope : ListRope} {world world' : World} {m : RopeModel} :
    Reaches allocator rope world m → rope.LeavesAlone world world' →
    Reaches allocator rope world' m

theorem ListRope.new_eq (layout : Layout) :
    ListRope.new layout = ListRope.withChunkCapacity layout ListRope.defaultChunkCapacity := by
  unfold ListRope.new ListRope.withChunkCapacity
  split <;> rfl

/-- The rope has the slots of the model in its chunks, which are allocated, and the slots have what
was written to them. -/
structure Refines (rope : ListRope) (world : World) (m : RopeModel) : Prop where
  size_pos : 0 < rope.elementLayout.size
  perChunk_pos : 0 < rope.elementsPerChunk
  layout : rope.chunks ≠ [] → ∃ layout, rope.chunkLayout = .ok layout
  len : m.rope.slots.length = rope.len
  contents_length : m.contents.length = rope.len
  initialized : m.rope.initializedCount = rope.initializedCount
  initialized_le : rope.initializedCount ≤ rope.len
  enough : rope.len ≤ rope.chunks.length * rope.elementsPerChunk
  slots : ∀ (i slot : ℕ), m.rope.slots[i]? = some slot → rope.elementPtr i = .ok slot
  allocated : rope.Allocated world
  contents : ∀ (i : ℕ) (bytes : List UInt8) (slot : ℕ), m.contents[i]? = some (some bytes) →
    m.rope.slots[i]? = some slot → read world.mem slot rope.elementLayout.size = bytes

section Slots

variable {rope : ListRope} {world : World}

theorem of_elementPtr_ok {i slot : ℕ} (h : rope.elementPtr i = .ok slot) :
    ∃ chunk, rope.chunks[i / rope.elementsPerChunk]? = some chunk ∧
      slot = ((rope.chunkBlock chunk).slot rope.elementLayout.size
        (i % rope.elementsPerChunk)).addr := by
  unfold ListRope.elementPtr at h
  simp only at h
  split at h
  · next chunk hchunk =>
    cases h
    exact ⟨chunk, hchunk, rfl⟩
  · cases h

theorem elementPtr_ok {i chunk : ℕ}
    (h : rope.chunks[i / rope.elementsPerChunk]? = some chunk) :
    rope.elementPtr i =
      .ok ((rope.chunkBlock chunk).slot rope.elementLayout.size (i % rope.elementsPerChunk)).addr := by
  unfold ListRope.elementPtr
  simp only [h]
  rfl

theorem slot_within_chunk (hper : 0 < rope.elementsPerChunk) {i slot : ℕ}
    (h : rope.elementPtr i = .ok slot) :
    ∃ block ∈ rope.blocks, Block.Within ⟨slot, rope.elementLayout.size⟩ block := by
  obtain ⟨chunk, hchunk, rfl⟩ := of_elementPtr_ok h
  refine ⟨rope.chunkBlock chunk, List.mem_map_of_mem (List.mem_of_getElem? hchunk), ?_⟩
  exact Block.slot_within rfl (Nat.mod_lt i hper)

/-- Two slots are apart: in one chunk by their places, and otherwise because the chunks are. -/
theorem slots_disjoint (hper : 0 < rope.elementsPerChunk)
    (hblocks : rope.blocks.Pairwise Block.Disjoint) {i j slot slot' : ℕ} (hij : i ≠ j)
    (h : rope.elementPtr i = .ok slot) (h' : rope.elementPtr j = .ok slot') :
    Block.Disjoint ⟨slot, rope.elementLayout.size⟩ ⟨slot', rope.elementLayout.size⟩ := by
  obtain ⟨chunk, hchunk, rfl⟩ := of_elementPtr_ok h
  obtain ⟨chunk', hchunk', rfl⟩ := of_elementPtr_ok h'
  have hwithin (i chunk : ℕ) : ((rope.chunkBlock chunk).slot rope.elementLayout.size
      (i % rope.elementsPerChunk)).Within (rope.chunkBlock chunk) :=
    Block.slot_within rfl (Nat.mod_lt i hper)
  by_cases hsame : i / rope.elementsPerChunk = j / rope.elementsPerChunk
  · rw [hsame, hchunk'] at hchunk
    cases hchunk
    apply Block.slots_disjoint
    intro hmod
    apply hij
    rw [← Nat.div_add_mod i rope.elementsPerChunk, ← Nat.div_add_mod j rope.elementsPerChunk,
      hsame, hmod]
  · obtain ⟨hlt, rfl⟩ := List.getElem?_eq_some_iff.mp hchunk
    obtain ⟨hlt', rfl⟩ := List.getElem?_eq_some_iff.mp hchunk'
    have hchunks : Block.Disjoint (rope.chunkBlock rope.chunks[i / rope.elementsPerChunk])
        (rope.chunkBlock rope.chunks[j / rope.elementsPerChunk]) := by
      have hpair := List.pairwise_iff_getElem.mp (List.pairwise_map.mp hblocks)
      rcases Nat.lt_or_gt_of_ne hsame with hless | hless
      · exact hpair _ _ hlt hlt' hless
      · exact (hpair _ _ hlt' hlt hless).symm
    exact hchunks.mono (hwithin i _) (hwithin j _)

end Slots

theorem chunkLayout_size {rope : ListRope} {layout : Layout} (h : rope.chunkLayout = .ok layout) :
    layout.size = rope.elementLayout.size * rope.elementsPerChunk := by
  unfold ListRope.chunkLayout at h
  simp only at h
  split at h
  · cases h
    rfl
  · cases h

namespace Refines

variable {allocator : Allocator} {rope rope' : ListRope} {world world' : World} {m : RopeModel}

theorem blocks_disjoint (h : Refines rope world m) : rope.blocks.Pairwise Block.Disjoint := by
  obtain ⟨others, hperm⟩ := h.allocated.live
  exact pairwise_disjoint_of_perm h.allocated.disjoint hperm

theorem of_new {layout : Layout} {elementsPerChunk : ℕ}
    (h : ListRope.withChunkCapacity layout elementsPerChunk = .ok rope)
    (hdisjoint : world.live.Pairwise Block.Disjoint) : Refines rope world .empty := by
  unfold ListRope.withChunkCapacity at h
  split at h
  · cases h
  · next hsize =>
    split at h
    · cases h
    · next hper =>
      cases h
      refine ⟨by simp only; omega, by simp only; omega, by simp, rfl, rfl, rfl, le_rfl,
        Nat.zero_le _, ?_,
        ⟨hdisjoint, world.live, .refl _⟩, ?_⟩
      · intro i slot hslot
        simp [RopeModel.empty] at hslot
      · intro i bytes slot hbytes
        simp [RopeModel.empty] at hbytes

/-- The next slot is handed out, where there is a chunk for it. -/
theorem handOut (h : Refines rope world m) {slot : ℕ} (hslot : rope.elementPtr rope.len = .ok slot) :
    Refines { rope with len := rope.len + 1 } world (m.push slot) := by
  refine ⟨h.size_pos, h.perChunk_pos, h.layout, ?_, ?_, h.initialized, ?_, ?_, ?_,
    ⟨h.allocated.disjoint, h.allocated.live⟩, ?_⟩
  · simp [RopeModel.push, h.len]
  · simp [RopeModel.push, h.contents_length]
  · exact Nat.le_succ_of_le h.initialized_le
  · obtain ⟨chunk, hchunk, -⟩ := of_elementPtr_ok hslot
    exact (Nat.div_lt_iff_lt_mul h.perChunk_pos).mp (List.getElem?_eq_some_iff.mp hchunk).1
  · intro i slot' hslot'
    simp only [RopeModel.push] at hslot'
    rcases Nat.lt_or_ge i m.rope.slots.length with hlt | hge
    · rw [List.getElem?_append_left hlt] at hslot'
      exact h.slots i slot' hslot'
    · rw [List.getElem?_append_right hge] at hslot'
      have hzero : i - m.rope.slots.length = 0 := by
        have := (List.getElem?_eq_some_iff.mp hslot').1
        simp only [List.length_singleton] at this
        omega
      rw [hzero] at hslot'
      cases hslot'
      have hi : i = rope.len := by rw [← h.len]; omega
      rw [hi]
      exact hslot
  · intro i bytes slot' hbytes hslot'
    simp only [RopeModel.push] at hbytes hslot'
    have hlt : i < m.contents.length := by
      by_contra hge
      rw [List.getElem?_append_right (by omega)] at hbytes
      have := List.mem_of_getElem? hbytes
      simp at this
    rw [List.getElem?_append_left hlt] at hbytes
    rw [List.getElem?_append_left (by rw [h.len, ← h.contents_length]; exact hlt)] at hslot'
    exact h.contents i bytes slot' hbytes hslot'

theorem addChunk (h : Refines rope world m) (hfresh : allocator.Fresh) {chunk : ℕ}
    (halloc : rope.allocateChunk allocator world = .ok (chunk, world')) :
    Refines { rope with chunks := rope.chunks ++ [chunk] } world' m := by
  obtain ⟨layout, hlayout, halloc⟩ := ExceptList.exists_of_bind_ok halloc
  have hsize := chunkLayout_size hlayout
  cases haddr : allocator world layout with
  | none =>
    simp only [haddr] at halloc
    cases halloc
  | some addr =>
    simp only [haddr] at halloc
    cases halloc
    obtain ⟨others, hperm⟩ := h.allocated.live
    refine ⟨h.size_pos, h.perChunk_pos, fun _ => ⟨layout, hlayout⟩, h.len, h.contents_length,
      h.initialized, h.initialized_le, ?_, ?_, ⟨?_, others, ?_⟩, h.contents⟩
    · have henough := h.enough
      simp only [List.length_append, List.length_singleton, Nat.succ_mul]
      omega
    · intro i slot hslot
      obtain ⟨chunk, hchunk, rfl⟩ := of_elementPtr_ok (h.slots i slot hslot)
      apply elementPtr_ok
      simp only
      rw [List.getElem?_append_left (List.getElem?_eq_some_iff.mp hchunk).1]
      exact hchunk
    · exact List.pairwise_cons.mpr ⟨hfresh world layout chunk haddr, h.allocated.disjoint⟩
    · have hblocks : ListRope.blocks { rope with chunks := rope.chunks ++ [chunk] } =
          rope.blocks ++ [⟨chunk, layout.size⟩] := by
        unfold ListRope.blocks ListRope.chunkBlock
        rw [List.map_append, hsize]
        rfl
      rw [hblocks, List.append_assoc]
      exact (hperm.cons _).trans List.perm_middle.symm

theorem push (h : Refines rope world m) (hfresh : allocator.Fresh) {slot : ℕ}
    (hrun : rope.pushUninit allocator world = .ok (slot, rope', world')) :
    Refines rope' world' (m.push slot) := by
  obtain ⟨⟨rope₁, world₁⟩, hroom, hrun⟩ := ExceptList.exists_of_bind_ok hrun
  obtain ⟨ptr, hptr, hrun⟩ := ExceptList.exists_of_bind_ok hrun
  cases hrun
  unfold ListRope.withRoom at hroom
  split at hroom
  · obtain ⟨⟨chunk, world₂⟩, halloc, hroom⟩ := ExceptList.exists_of_bind_ok hroom
    cases hroom
    exact (h.addChunk hfresh halloc).handOut hptr
  · cases hroom
    exact h.handOut hptr

theorem mark (h : Refines rope world m) (hrun : rope.markLastInitialized = .ok rope') :
    Refines rope' world m.mark := by
  unfold ListRope.markLastInitialized at hrun
  split at hrun
  · next hlt =>
    cases hrun
    refine ⟨h.size_pos, h.perChunk_pos, h.layout, h.len, h.contents_length, ?_, hlt, h.enough,
      h.slots, ⟨h.allocated.disjoint, h.allocated.live⟩, h.contents⟩
    simp [RopeModel.mark, Frames.ListRope.markLastInitialized, h.initialized]
  · cases hrun

/-- What is written to one slot is not seen in the others. -/
theorem write (h : Refines rope world m) {i slot : ℕ} {bytes : List UInt8}
    (hslot : m.rope.slots[i]? = some slot) (hlen : bytes.length = rope.elementLayout.size) :
    Refines rope { world with mem := Blocks.write world.mem slot bytes } (m.write i bytes) := by
  refine ⟨h.size_pos, h.perChunk_pos, h.layout, h.len, ?_, h.initialized, h.initialized_le,
    h.enough, h.slots, ⟨h.allocated.disjoint, h.allocated.live⟩, ?_⟩
  · simp [RopeModel.write, h.contents_length]
  · intro j bytes' slot' hbytes hslot'
    simp only [RopeModel.write] at hbytes hslot'
    by_cases hij : i = j
    · subst hij
      rw [hslot] at hslot'
      cases hslot'
      rw [List.getElem?_set_self'] at hbytes
      obtain ⟨_, _, hsome⟩ := Option.map_eq_some_iff.mp hbytes
      cases hsome
      rw [← hlen]
      exact read_write_same slot bytes
    · rw [List.getElem?_set_ne hij] at hbytes
      have hapart := slots_disjoint h.perChunk_pos h.blocks_disjoint hij (h.slots i slot hslot)
        (h.slots j slot' hslot')
      have hsame := (agreeOn_write_of_disjoint world.mem hapart hlen).read_eq
      simp only at hsame ⊢
      rw [hsame]
      exact h.contents j bytes' slot' hbytes hslot'

theorem elsewhere (h : Refines rope world m) (halone : rope.LeavesAlone world world') :
    Refines rope world' m := by
  refine ⟨h.size_pos, h.perChunk_pos, h.layout, h.len, h.contents_length, h.initialized,
    h.initialized_le, h.enough, h.slots, halone.allocated, ?_⟩
  intro i bytes slot hbytes hslot
  obtain ⟨block, hblock, hwithin⟩ := slot_within_chunk h.perChunk_pos (h.slots i slot hslot)
  have hsame := ((halone.bytes block hblock).mono hwithin).read_eq
  simp only at hsame
  rw [hsame]
  exact h.contents i bytes slot hbytes hslot

end Refines

/-- Nothing but the allocation of a chunk can fail when a slot is handed out. -/
theorem Refines.of_pushUninit_error {allocator : Allocator} {rope : ListRope} {world : World}
    {m : RopeModel} (h : Refines rope world m) {stop : RopeStop}
    (hrun : rope.pushUninit allocator world = .error stop) :
    rope.allocateChunk allocator world = .error stop := by
  have hthere (rope' : ListRope) (world' : World) (hper : 0 < rope'.elementsPerChunk)
      (hroom : rope.withRoom allocator world = .ok (rope', world'))
      (hlen : rope'.len < rope'.chunks.length * rope'.elementsPerChunk) : False := by
    obtain ⟨chunk, hchunk⟩ : ∃ chunk, rope'.chunks[rope'.len / rope'.elementsPerChunk]? = some chunk :=
      ⟨_, List.getElem?_eq_getElem ((Nat.div_lt_iff_lt_mul hper).mpr hlen)⟩
    unfold ListRope.pushUninit at hrun
    rw [hroom] at hrun
    simp only [bind, Except.bind, elementPtr_ok hchunk] at hrun
    cases hrun
  by_cases hfull : rope.len / rope.elementsPerChunk ≥ rope.chunks.length
  · cases halloc : rope.allocateChunk allocator world with
    | error stop' =>
      unfold ListRope.pushUninit ListRope.withRoom at hrun
      rw [if_pos hfull, halloc] at hrun
      cases hrun
      rfl
    | ok r =>
      exfalso
      refine hthere { rope with chunks := rope.chunks ++ [r.1] } r.2 h.perChunk_pos ?_ ?_
      · unfold ListRope.withRoom
        rw [if_pos hfull, halloc]
        rfl
      · have henough := h.enough
        have hpos := h.perChunk_pos
        simp only [List.length_append, List.length_singleton, Nat.succ_mul]
        omega
  · exfalso
    refine hthere rope world h.perChunk_pos ?_ ?_
    · unfold ListRope.withRoom
      rw [if_neg hfull]
    · exact (Nat.div_lt_iff_lt_mul h.perChunk_pos).mp (by omega)

theorem refines_of_reaches {allocator : Allocator} (hfresh : allocator.Fresh) {rope : ListRope}
    {world : World} {m : RopeModel} (h : Reaches allocator rope world m) :
    Refines rope world m := by
  induction h with
  | new hrope hdisjoint => exact .of_new hrope hdisjoint
  | push _ hrun ih => exact ih.push hfresh hrun
  | mark _ hrun ih => exact ih.mark hrun
  | write _ hslot hlen ih => exact ih.write hslot hlen
  | elsewhere _ halone ih => exact ih.elsewhere halone

/-- An allocator that never uses an address again. -/
def bump : Allocator := fun world _ =>
  some (world.live.foldr (fun block addr => max (block.addr + block.size) addr) 8)

theorem bump_fresh : bump.Fresh := by
  intro world layout addr haddr block hblock
  cases haddr
  right
  simp only
  generalize world.live = live at hblock
  induction live with
  | nil => cases hblock
  | cons other live ih =>
    rcases List.mem_cons.mp hblock with rfl | hblock
    · exact Nat.le_max_left _ _
    · exact (ih hblock).trans (Nat.le_max_right _ _)

/-- Chunks for one element of two bytes each, and two elements, of which the first one is
initialised. -/
theorem reaches_two : ∃ rope world m, Reaches bump rope world m ∧ rope.len = 2 ∧
    m.contents = [some [1, 2], none] ∧ m.rope.initializedCount = 1 := by
  have hnew : ListRope.withChunkCapacity ⟨2, 2⟩ 1 = .ok ⟨[], ⟨2, 2⟩, 1, 0, 0⟩ := rfl
  have hstart : Reaches bump ⟨[], ⟨2, 2⟩, 1, 0, 0⟩ ⟨[], fun _ => 0⟩ .empty := .new hnew .nil
  have hfirst := hstart.push rfl
  have hwritten : Reaches bump _ _ (RopeModel.write _ 0 [1, 2]) := hfirst.write rfl rfl
  have hmarked := hwritten.mark rfl
  have hsecond := hmarked.push rfl
  exact ⟨_, _, _, hsecond, rfl, rfl, rfl⟩

section End

variable {rope : ListRope} {world : World} {m : RopeModel}

/-- The chunks are given back, each once, and nothing else is. -/
theorem deallocateChunks_ok (hlayout : rope.chunks ≠ [] → ∃ layout, rope.chunkLayout = .ok layout)
    {chunks : List ℕ} (hchunks : chunks ⊆ rope.chunks) {others : List Block}
    (hlive : world.live.Perm (chunks.map rope.chunkBlock ++ others)) :
    ∃ world', rope.deallocateChunks chunks world = .ok world' ∧ world'.mem = world.mem ∧
      world'.live.Perm others := by
  induction chunks generalizing world with
  | nil => exact ⟨world, rfl, rfl, hlive⟩
  | cons chunk chunks ih =>
    obtain ⟨layout, hrun⟩ := hlayout (List.ne_nil_of_mem (hchunks List.mem_cons_self))
    obtain ⟨hmem, herase⟩ := mem_and_erase_of_perm hlive
    have hlive' : (World.mk (world.live.erase (rope.chunkBlock chunk)) world.mem).live.Perm
        (chunks.map rope.chunkBlock ++ others) := herase
    obtain ⟨world', hrest, hbytes, hothers⟩ :=
      ih (fun c hc => hchunks (List.mem_cons_of_mem chunk hc)) hlive'
    refine ⟨world', ?_, hbytes, hothers⟩
    have hblock : (⟨chunk, layout.size⟩ : Block) = rope.chunkBlock chunk := by
      rw [ListRope.chunkBlock, chunkLayout_size hrun]
    have hfirst : rope.deallocateChunk chunk world =
        .ok { world with live := world.live.erase (rope.chunkBlock chunk) } := by
      unfold ListRope.deallocateChunk World.dealloc
      rw [hrun]
      simp only [bind, Except.bind, hblock]
      rw [if_pos hmem]
    rw [ListRope.deallocateChunks, hfirst]
    exact hrest

/-- The initialised slots are those of the model, in order. -/
theorem Refines.iterInitialized_eq (h : Refines rope world m) :
    rope.iterInitialized = .ok (m.rope.slots.take m.rope.initializedCount) := by
  have hcount : rope.initializedCount ≤ m.rope.slots.length := by
    rw [h.len]
    exact h.initialized_le
  unfold ListRope.iterInitialized
  rw [h.initialized]
  generalize rope.initializedCount = n at hcount
  induction n with
  | zero => rfl
  | succ n ih =>
    have hslot := h.slots n _ (List.getElem?_eq_getElem (by omega))
    rw [List.range_succ, List.mapM_append, ih (by omega)]
    simp only [List.mapM_cons, List.mapM_nil, hslot, bind, Except.bind, pure, Except.pure]
    rw [List.take_succ_eq_append_getElem (by omega)]

/-- The function gets the initialised slots of the model, in order. -/
theorem Refines.forInitialized_eq (h : Refines rope world m) (f : ℕ → World → World)
    (start : World) :
    rope.forInitialized f start =
      .ok ((m.rope.slots.take m.rope.initializedCount).foldl (fun world slot => f slot world)
        start) := by
  have hcount : rope.initializedCount ≤ m.rope.slots.length := by
    rw [h.len]
    exact h.initialized_le
  unfold ListRope.forInitialized
  rw [h.initialized]
  generalize rope.initializedCount = n at hcount
  induction n with
  | zero => rfl
  | succ n ih =>
    have hslot := h.slots n _ (List.getElem?_eq_getElem (by omega))
    rw [List.range_succ, List.foldlM_append, ih (by omega)]
    simp only [List.foldlM_cons, List.foldlM_nil, hslot, bind, Except.bind, pure, Except.pure]
    rw [List.take_succ_eq_append_getElem (by omega), List.foldl_append]
    rfl

/-- The elements that are moved out one after another are those in the slots at the start. -/
theorem foldl_read_eq {slots : List ℕ} {size : ℕ} {push : List UInt8 → World → World}
    (hpush : ∀ bytes world, rope.Allocated world → rope.LeavesAlone world (push bytes world))
    (hslots : ∀ slot ∈ slots, ∃ block ∈ rope.blocks, Block.Within ⟨slot, size⟩ block)
    (hallocated : rope.Allocated world) :
    (slots.foldl (fun world slot => push (read world.mem slot size) world) world) =
        (slots.map fun slot => read world.mem slot size).foldl (fun world bytes => push bytes world)
          world ∧
      rope.Allocated
        (slots.foldl (fun world slot => push (read world.mem slot size) world) world) := by
  induction slots generalizing world with
  | nil => exact ⟨rfl, hallocated⟩
  | cons slot slots ih =>
    have halone := hpush (read world.mem slot size) world hallocated
    have hrest := ih (fun s hs => hslots s (List.mem_cons_of_mem slot hs)) halone.allocated
    refine ⟨?_, hrest.2⟩
    rw [List.foldl_cons, hrest.1, List.map_cons, List.foldl_cons]
    congr 1
    apply List.map_congr_left
    intro s hs
    obtain ⟨block, hblock, hwithin⟩ := hslots s (List.mem_cons_of_mem slot hs)
    exact ((halone.bytes block hblock).mono hwithin).read_eq

/-- Draining, whatever the function that moves does elsewhere: it gets what was written to the
initialised slots, in the order of the slots, and then the rope is empty and exactly its chunks have
been given back. -/
theorem drainInto_spec {allocator : Allocator} (hfresh : allocator.Fresh)
    (h : Reaches allocator rope world m) (push : List UInt8 → World → World)
    (hpush : ∀ bytes world, rope.Allocated world → rope.LeavesAlone world (push bytes world)) :
    ∃ (values : List (List UInt8)) (world' : World),
      rope.drainInto (fun slot world => push (read world.mem slot rope.elementLayout.size) world)
        world = .ok (rope.emptied, world') ∧
      values.length = m.rope.initializedCount ∧
      (∀ i (bytes : List UInt8), i < m.rope.initializedCount →
        m.contents[i]? = some (some bytes) → values[i]? = some bytes) ∧
      let pushed := values.foldl (fun world bytes => push bytes world) world
      world'.mem = pushed.mem ∧ pushed.live.Perm (rope.blocks ++ world'.live) := by
  have hrefines := refines_of_reaches hfresh h
  have hcount : m.rope.initializedCount ≤ m.rope.slots.length := by
    rw [hrefines.initialized, hrefines.len]
    exact hrefines.initialized_le
  have hslots : ∀ slot ∈ m.rope.slots.take m.rope.initializedCount,
      ∃ block ∈ rope.blocks, Block.Within ⟨slot, rope.elementLayout.size⟩ block := by
    intro slot hslot
    obtain ⟨i, hi⟩ := List.mem_iff_getElem?.mp (List.mem_of_mem_take hslot)
    exact slot_within_chunk hrefines.perChunk_pos (hrefines.slots i slot hi)
  obtain ⟨hfold, hallocated⟩ := foldl_read_eq hpush hslots hrefines.allocated
  rw [hfold] at hallocated
  obtain ⟨others, hlive⟩ := hallocated.live
  obtain ⟨world', hdealloc, hbytes, hothers⟩ :=
    deallocateChunks_ok hrefines.layout (List.Subset.refl rope.chunks) hlive
  refine ⟨_, world', ?_, ?_, ?_, hbytes, hlive.trans (hothers.symm.append_left rope.blocks)⟩
  · unfold ListRope.drainInto
    rw [hrefines.forInitialized_eq, hfold]
    simp only [bind, Except.bind, hdealloc]
    rfl
  · simp [hcount]
  · intro i bytes hi hwritten
    have hlt : i < m.rope.slots.length := by omega
    rw [List.getElem?_map, List.getElem?_take_of_lt hi, List.getElem?_eq_getElem hlt,
      Option.map_some,
      hrefines.contents i bytes m.rope.slots[i] hwritten (List.getElem?_eq_getElem hlt)]

/-- Only the first element is moved out. -/
theorem drainInto_spec_two : ∃ rope world m, Reaches bump rope world m ∧
    ∃ (values : List (List UInt8)) (world' : World),
      rope.drainInto (fun _ world => world) world = .ok (rope.emptied, world') ∧
      values.length = m.rope.initializedCount ∧
      (∀ i (bytes : List UInt8), i < m.rope.initializedCount →
        m.contents[i]? = some (some bytes) → values[i]? = some bytes) ∧
      let pushed := values.foldl (fun world _ => world) world
      world'.mem = pushed.mem ∧ pushed.live.Perm (rope.blocks ++ world'.live) := by
  obtain ⟨rope, world, m, h, -⟩ := reaches_two
  exact ⟨rope, world, m, h, drainInto_spec bump_fresh h (fun _ world => world)
    fun _ world hallocated => ⟨hallocated, fun _ _ _ _ _ => rfl⟩⟩

/-- Dropping the elements in place, whatever the function that drops does elsewhere. -/
theorem dropAll_spec {allocator : Allocator} (hfresh : allocator.Fresh)
    (h : Reaches allocator rope world m) (dropFn : Option (ℕ → World → World))
    (hdrop : ∀ f ∈ dropFn, ∀ slot world, rope.Allocated world → rope.Allocated (f slot world)) :
    ∃ world', rope.dropAll dropFn world = .ok (rope.emptied, world') ∧
      let dropped := dropFn.elim world fun f =>
        (m.rope.slots.take m.rope.initializedCount).foldl (fun world slot => f slot world) world
      world'.mem = dropped.mem ∧ dropped.live.Perm (rope.blocks ++ world'.live) := by
  have hrefines := refines_of_reaches hfresh h
  have hends (dropped : World) (hallocated : rope.Allocated dropped) :
      ∃ world', rope.deallocateChunks rope.chunks dropped = .ok world' ∧
        world'.mem = dropped.mem ∧ dropped.live.Perm (rope.blocks ++ world'.live) := by
    obtain ⟨others, hlive⟩ := hallocated.live
    obtain ⟨world', hdealloc, hbytes, hothers⟩ :=
      deallocateChunks_ok hrefines.layout (List.Subset.refl rope.chunks) hlive
    exact ⟨world', hdealloc, hbytes, hlive.trans (hothers.symm.append_left rope.blocks)⟩
  cases dropFn with
  | none =>
    obtain ⟨world', hdealloc, hrest⟩ := hends world hrefines.allocated
    refine ⟨world', ?_, hrest⟩
    simp [ListRope.dropAll, hdealloc]
  | some f =>
    have hallocated : rope.Allocated ((m.rope.slots.take m.rope.initializedCount).foldl
        (fun world slot => f slot world) world) := by
      apply List.foldlRecOn
      · exact hrefines.allocated
      · exact fun dropped hallocated slot _ => hdrop f rfl slot dropped hallocated
    obtain ⟨world', hdealloc, hrest⟩ := hends _ hallocated
    refine ⟨world', ?_, hrest⟩
    simp only [ListRope.dropAll, hrefines.forInitialized_eq]
    simp only [bind, Except.bind, hdealloc]
    rfl

/-- A rope that goes out of scope is dropped without a function for its elements. -/
theorem dropAll_none : rope.dropAll none world = (rope.drop world).map (rope.emptied, ·) := by
  simp only [ListRope.dropAll, ListRope.drop, pure_bind]
  cases rope.deallocateChunks rope.chunks world with
  | error stop => rfl
  | ok world' => rfl

/-- The slots that have been handed out are where the rope says, apart from each other and from all
other blocks that are allocated, and the next one is handed out unless a chunk cannot be allocated.
-/
theorem slots_stable {allocator : Allocator} (hfresh : allocator.Fresh)
    (h : Reaches allocator rope world m) :
    m.rope.slots.length = rope.len ∧
      (∀ i slot, m.rope.slots[i]? = some slot → rope.getPtr i = .ok slot) ∧
      rope.iterInitialized = .ok (m.rope.slots.take m.rope.initializedCount) ∧
      (m.rope.slots.map fun slot => Block.mk slot rope.elementLayout.size).Pairwise
        Block.Disjoint ∧
      (∀ others, world.live.Perm (rope.blocks ++ others) → ∀ slot ∈ m.rope.slots,
        ∀ block ∈ others, Block.Disjoint ⟨slot, rope.elementLayout.size⟩ block) ∧
      ∀ stop, rope.pushUninit allocator world = .error stop →
        rope.allocateChunk allocator world = .error stop := by
  have hrefines := refines_of_reaches hfresh h
  refine ⟨hrefines.len, ?_, hrefines.iterInitialized_eq, ?_, ?_,
    fun stop => hrefines.of_pushUninit_error⟩
  · intro i slot hslot
    unfold ListRope.getPtr
    rw [if_pos (by rw [← hrefines.len]; exact (List.getElem?_eq_some_iff.mp hslot).1)]
    exact hrefines.slots i slot hslot
  · rw [List.pairwise_map, List.pairwise_iff_getElem]
    intro i j hi hj hij
    exact slots_disjoint hrefines.perChunk_pos hrefines.blocks_disjoint (by omega)
      (hrefines.slots i _ (List.getElem?_eq_getElem hi))
      (hrefines.slots j _ (List.getElem?_eq_getElem hj))
  · intro others hperm slot hslot block hblock
    obtain ⟨i, hi⟩ := List.mem_iff_getElem?.mp hslot
    obtain ⟨chunk, hchunk, hwithin⟩ :=
      slot_within_chunk hrefines.perChunk_pos (hrefines.slots i slot hi)
    have hall := hperm.pairwise hrefines.allocated.disjoint fun hdisjoint => hdisjoint.symm
    have hapart := (List.pairwise_append.mp hall).2.2 chunk hchunk block hblock
    exact hapart.mono hwithin ⟨le_rfl, le_rfl⟩

theorem slots_stable_two : ∃ rope world m, Reaches bump rope world m ∧
    m.rope.slots.length = rope.len ∧
      (∀ i slot, m.rope.slots[i]? = some slot → rope.getPtr i = .ok slot) ∧
      rope.iterInitialized = .ok (m.rope.slots.take m.rope.initializedCount) ∧
      (m.rope.slots.map fun slot => Block.mk slot rope.elementLayout.size).Pairwise
        Block.Disjoint ∧
      (∀ others, world.live.Perm (rope.blocks ++ others) → ∀ slot ∈ m.rope.slots,
        ∀ block ∈ others, Block.Disjoint ⟨slot, rope.elementLayout.size⟩ block) ∧
      ∀ stop, rope.pushUninit bump world = .error stop →
        rope.allocateChunk bump world = .error stop := by
  obtain ⟨rope, world, m, h, -⟩ := reaches_two
  exact ⟨rope, world, m, h, slots_stable bump_fresh h⟩

end End

end Facet.Frames.Rope
