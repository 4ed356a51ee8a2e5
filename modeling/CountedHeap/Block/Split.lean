import CountedHeap.Block.Header
import CountedHeap.Size.Rounding

namespace CountedHeap

/-- The size from which on a block is split for a request of `size` bytes: the remainder then holds
about as much as the request, and always a header and a word. -/
def splitThreshold (size : UInt64) : Option UInt64 := do
  let doubled ← Size.add? (← Size.mul? size 2) headerSize
  let aligned ← Size.add? (← Size.alignWord? size) (headerSize + wordSize)
  return max doubled aligned

/-- Where a block is cut: the header of the remainder, and its size. -/
structure Cut where
  remainder : Place
  size : UInt64
  deriving DecidableEq, Repr

/-- The cut that leaves `size` bytes to the block at `h`, which has `available` bytes. It needs room
for the rounded size, a header and a word. -/
def Cut.plan (h : Place) (available size : UInt64) : Except Fault Cut := do
  let used ← match Size.nextMultiple? size wordSize with
    | some used => pure used
    | none => throw .addOverflow
  let needed ← Size.add (← Size.add used headerSize) wordSize
  if available < needed then
    throw .blockTooSmallToSplit
  let rest ← Size.subtract (← Size.subtract available used) headerSize
  return ⟨h.payload + used.toNat, rest⟩

/-- Splits the block at `h`, which keeps `size` bytes, at the given cut. -/
def Memory.split (m : Memory) (h : Place) (size : UInt64) (cut : Cut) : Memory :=
  let next := m.next h
  let m := m.setHeader cut.remainder ⟨next, cut.size, 0⟩
  (m.setNext h (some cut.remainder)).setSize h size

end CountedHeap
