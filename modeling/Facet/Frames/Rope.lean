import Facet.Frames.Frame
import Facet.Lib.Blocks

/-!
# The chunks of a list's rope

The elements of a list are built in chunks that never move, and are moved into the list at the end.
The frames see a rope only as the slots it has handed out and the number of initialised ones; here
the chunks are those of an allocator, and the slots lie in them.
-/

namespace Facet.Frames.Rope

open Blocks

structure Layout where
  size : ℕ
  align : ℕ

/-- The allocated blocks, and all bytes. -/
structure World where
  live : List Block
  mem : ℕ → UInt8

/-- What the rope's assertions say, what the allocator can refuse, and what must not happen. -/
inductive RopeStop
  | panic (message : String)
  | undefinedBehavior

abbrev Roped (α : Type) := Except RopeStop α

/-- The global allocator: the address of a new block, or none. -/
abbrev Allocator := World → Layout → Option ℕ

/-- A new block is disjoint from all that are allocated. -/
def Allocator.Fresh (allocator : Allocator) : Prop :=
  ∀ world layout addr, allocator world layout = some addr →
    ∀ block ∈ world.live, Block.Disjoint ⟨addr, layout.size⟩ block

/-- Only a block that is allocated can be deallocated, with its own size. -/
def World.dealloc (world : World) (addr : ℕ) (layout : Layout) : Roped World :=
  if ⟨addr, layout.size⟩ ∈ world.live then
    .ok { world with live := world.live.erase ⟨addr, layout.size⟩ }
  else .error .undefinedBehavior

structure ListRope where
  chunks : List ℕ
  elementLayout : Layout
  elementsPerChunk : ℕ
  len : ℕ
  initializedCount : ℕ

namespace ListRope

def withChunkCapacity (elementLayout : Layout) (elementsPerChunk : ℕ) : Roped ListRope :=
  if elementLayout.size = 0 then
    .error (.panic "ListRope should not be used for zero-sized types")
  else if elementsPerChunk = 0 then .error (.panic "elements_per_chunk must be > 0")
  else .ok { chunks := [], elementLayout, elementsPerChunk, len := 0, initializedCount := 0 }

def defaultChunkCapacity : ℕ := 16

def new (elementLayout : Layout) : Roped ListRope :=
  if elementLayout.size = 0 then
    .error (.panic "ListRope should not be used for zero-sized types")
  else
    .ok {
      chunks := [], elementLayout, elementsPerChunk := defaultChunkCapacity, len := 0
      initializedCount := 0 }

variable (rope : ListRope)

/-- A layout has a size that fits into an `isize` when it is rounded up to its alignment. -/
def chunkLayout : Roped Layout :=
  let chunkSize := rope.elementLayout.size * rope.elementsPerChunk
  if chunkSize + rope.elementLayout.align ≤ 2 ^ 63 then .ok ⟨chunkSize, rope.elementLayout.align⟩
  else .error (.panic "called `Result::unwrap()` on an `Err` value: LayoutError")

def allocateChunk (allocator : Allocator) (world : World) : Roped (ℕ × World) := do
  let layout ← rope.chunkLayout
  match allocator world layout with
  | some addr => return (addr, { world with live := ⟨addr, layout.size⟩ :: world.live })
  | none => .error (.panic "allocation failed")

def deallocateChunk (chunk : ℕ) (world : World) : Roped World := do
  let layout ← rope.chunkLayout
  world.dealloc chunk layout

/-- The address of an element, in the chunk that has it. -/
def elementPtr (index : ℕ) : Roped ℕ :=
  let chunkIdx := index / rope.elementsPerChunk
  let idxInChunk := index % rope.elementsPerChunk
  match rope.chunks[chunkIdx]? with
  | some chunkPtr => .ok (chunkPtr + idxInChunk * rope.elementLayout.size)
  | none => .error (.panic "index out of bounds")

/-- A chunk is allocated when the last one is full. -/
def withRoom (allocator : Allocator) (world : World) : Roped (ListRope × World) :=
  if rope.len / rope.elementsPerChunk ≥ rope.chunks.length then do
    let (chunk, world) ← rope.allocateChunk allocator world
    return ({ rope with chunks := rope.chunks ++ [chunk] }, world)
  else .ok (rope, world)

def pushUninit (allocator : Allocator) (world : World) : Roped (ℕ × ListRope × World) := do
  let (rope, world) ← rope.withRoom allocator world
  let ptr ← rope.elementPtr rope.len
  return (ptr, { rope with len := rope.len + 1 }, world)

def markLastInitialized : Roped ListRope :=
  if rope.initializedCount < rope.len then
    .ok { rope with initializedCount := rope.initializedCount + 1 }
  else .error (.panic "mark_last_initialized called but no uninitialized elements")

def getPtr (index : ℕ) : Roped ℕ :=
  if index < rope.len then rope.elementPtr index else .error (.panic "index out of bounds")

/-- The addresses of all initialised elements, in order. -/
def iterInitialized : Roped (List ℕ) := (List.range rope.initializedCount).mapM rope.elementPtr

def deallocateChunks : List ℕ → World → Roped World
  | [], world => .ok world
  | chunk :: chunks, world => do
    let world ← rope.deallocateChunk chunk world
    deallocateChunks chunks world

/-- The function gets the address of each initialised element in turn. -/
def forInitialized (f : ℕ → World → World) (world : World) : Roped World :=
  (List.range rope.initializedCount).foldlM (fun world i => do
    let ptr ← rope.elementPtr i
    return f ptr world) world

def emptied : ListRope := { rope with chunks := [], len := 0, initializedCount := 0 }

/-- The elements are moved out, and all chunks are given back. -/
def drainInto (moveFn : ℕ → World → World) (world : World) : Roped (ListRope × World) := do
  let world ← rope.forInitialized moveFn world
  let world ← rope.deallocateChunks rope.chunks world
  return (rope.emptied, world)

def dropAll (dropFn : Option (ℕ → World → World)) (world : World) : Roped (ListRope × World) := do
  let world ← match dropFn with
    | some dropFn => rope.forInitialized dropFn world
    | none => pure world
  let world ← rope.deallocateChunks rope.chunks world
  return (rope.emptied, world)

/-- A rope that goes out of scope gives its chunks back, and forgets its elements. -/
def drop (world : World) : Roped World := rope.deallocateChunks rope.chunks world

end ListRope

end Facet.Frames.Rope
