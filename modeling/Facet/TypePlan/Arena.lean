import Mathlib.Algebra.Group.Nat.Defs
import Mathlib.Data.Nat.Notation

/-!
# Arenas with 32-bit indices

The lists of a type plan lie one behind the other in arenas; a range into an arena is its start
and its length, both cut to 32 bits.
-/

namespace Facet.TypePlan

structure SliceRange where
  start : UInt32
  len : UInt32
  deriving DecidableEq, Repr

structure Arena (α : Type) where
  data : List α := []

/-- Reads of memory that the range or the bounds do not cover. -/
inductive OutOfBounds
  | arenaSlice
  | bucket
  deriving DecidableEq, Repr

namespace Arena

variable {α : Type}

/-- The lengths are cast to 32 bits and subtracted without a check. -/
def allocExtend (arena : Arena α) (values : List α) : Arena α × SliceRange :=
  let start := UInt32.ofNat arena.data.length
  let data := arena.data ++ values
  let stop := UInt32.ofNat data.length
  (⟨data⟩, ⟨start, stop - start⟩)

def getSlice (arena : Arena α) (range : SliceRange) : Except OutOfBounds (List α) :=
  let start := range.start.toNat
  let stop := start + range.len.toNat
  if stop ≤ arena.data.length then .ok ((arena.data.drop start).take range.len.toNat)
  else .error .arenaSlice

/-- The arena after further allocations. -/
def extendedBy (arena : Arena α) (more : List α) : Arena α := ⟨arena.data ++ more⟩

/-- What has been allocated is read back, also after later allocations, provided that the
arena's length fits into 32 bits. -/
theorem getSlice_allocExtend (arena : Arena α) (values more : List α)
    (h : arena.data.length + values.length < 2 ^ 32) :
    ((arena.allocExtend values).1.extendedBy more).getSlice (arena.allocExtend values).2 =
      .ok values := by
  have hstart : (UInt32.ofNat arena.data.length).toNat = arena.data.length := by
    rw [UInt32.toNat_ofNat']
    omega
  have hend : (UInt32.ofNat (arena.data ++ values).length).toNat =
      arena.data.length + values.length := by
    rw [UInt32.toNat_ofNat', List.length_append]
    omega
  have hlen : (UInt32.ofNat (arena.data ++ values).length -
      UInt32.ofNat arena.data.length).toNat = values.length := by
    rw [UInt32.toNat_sub_of_le]
    · omega
    · rw [UInt32.le_iff_toNat_le]
      omega
  unfold getSlice allocExtend extendedBy
  simp only [hstart, hlen]
  rw [if_pos (by simp)]
  simp [List.append_assoc]

end Arena

end Facet.TypePlan
