import Mathlib.Data.List.Perm.Basic
import Mathlib.Data.Nat.Notation

/-!
# Blocks of memory

Blocks of consecutive addresses, and bytes that are written and read at them. What is written in one
block is read back there, and is not seen in a disjoint one; a block that is cut into slots of equal
size has disjoint slots.
-/

namespace Blocks

structure Block where
  addr : ℕ
  size : ℕ
  deriving DecidableEq

namespace Block

def Disjoint (a b : Block) : Prop := a.addr + a.size ≤ b.addr ∨ b.addr + b.size ≤ a.addr

/-- The block lies in the other one. -/
def Within (a b : Block) : Prop := b.addr ≤ a.addr ∧ a.addr + a.size ≤ b.addr + b.size

/-- One of the slots of equal size that a block is cut into. -/
def slot (b : Block) (size i : ℕ) : Block := ⟨b.addr + i * size, size⟩

theorem Disjoint.symm {a b : Block} (h : a.Disjoint b) : b.Disjoint a := Or.symm h

theorem Disjoint.mono {a b c d : Block} (h : c.Disjoint d) (hac : a.Within c) (hbd : b.Within d) :
    a.Disjoint b := by
  unfold Disjoint Within at *
  omega

theorem slot_within {b : Block} {size count i : ℕ} (hsize : b.size = size * count)
    (hi : i < count) : (b.slot size i).Within b := by
  have hend : i * size + size ≤ size * count := by
    calc i * size + size = (i + 1) * size := by rw [Nat.succ_mul]
      _ ≤ count * size := Nat.mul_le_mul_right size hi
      _ = size * count := Nat.mul_comm count size
  unfold Within slot
  simp only
  omega

theorem slots_disjoint (b : Block) (size : ℕ) {i j : ℕ} (hij : i ≠ j) :
    (b.slot size i).Disjoint (b.slot size j) := by
  have hlt {i j : ℕ} (hij : i < j) : i * size + size ≤ j * size := by
    calc i * size + size = (i + 1) * size := by rw [Nat.succ_mul]
      _ ≤ j * size := Nat.mul_le_mul_right size hij
  unfold Disjoint slot
  simp only
  rcases Nat.lt_or_gt_of_ne hij with h | h
  · have := hlt h
    omega
  · have := hlt h
    omega

end Block

variable {β : Type}

def read (mem : ℕ → β) (addr size : ℕ) : List β := (List.range size).map fun i => mem (addr + i)

def write (mem : ℕ → β) (addr : ℕ) (bytes : List β) : ℕ → β := fun a =>
  if addr ≤ a then bytes.getD (a - addr) (mem a) else mem a

/-- The two memories have the same bytes in the block. -/
def AgreeOn (b : Block) (mem mem' : ℕ → β) : Prop :=
  ∀ a, b.addr ≤ a → a < b.addr + b.size → mem' a = mem a

variable {mem mem' : ℕ → β}

theorem AgreeOn.mono {a b : Block} (h : AgreeOn b mem mem') (hab : a.Within b) :
    AgreeOn a mem mem' := by
  intro addr hstart hend
  unfold Block.Within at hab
  exact h addr (by omega) (by omega)

theorem AgreeOn.read_eq {b : Block} (h : AgreeOn b mem mem') :
    read mem' b.addr b.size = read mem b.addr b.size := by
  apply List.map_congr_left
  intro i hi
  have := List.mem_range.mp hi
  exact h (b.addr + i) (by omega) (by omega)

theorem read_write_same (addr : ℕ) (bytes : List β) :
    read (write mem addr bytes) addr bytes.length = bytes := by
  apply List.ext_getElem
  · simp [read]
  · intro i hi hi'
    simp [read, write, hi']

theorem agreeOn_write_of_disjoint (mem : ℕ → β) {a b : Block} (h : a.Disjoint b) {bytes : List β}
    (hlen : bytes.length = a.size) : AgreeOn b mem (write mem a.addr bytes) := by
  intro addr hstart hend
  unfold write
  split
  · unfold Block.Disjoint at h
    rw [List.getD_eq_getElem?_getD, List.getElem?_eq_none (by omega)]
    rfl
  · rfl

/-- Blocks that are apart stay so when they are taken in another order. -/
theorem pairwise_disjoint_of_perm {live blocks others : List Block}
    (hlive : live.Pairwise Block.Disjoint) (hperm : live.Perm (blocks ++ others)) :
    blocks.Pairwise Block.Disjoint :=
  (List.pairwise_append.mp (hperm.pairwise hlive fun hdisjoint => hdisjoint.symm)).1

theorem mem_and_erase_of_perm {live others : List Block} {block : Block}
    (hperm : live.Perm (block :: others)) :
    block ∈ live ∧ (live.erase block).Perm others := by
  refine ⟨hperm.mem_iff.mpr List.mem_cons_self, ?_⟩
  have herase := hperm.erase block
  rw [List.erase_cons_head] at herase
  exact herase

end Blocks
