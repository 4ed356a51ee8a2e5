import CountedHeap.Heap.Acquire

namespace CountedHeap

/-- Where bytes are copied from. A buffer outside of the heap has cells as well: it
may hold addresses. -/
inductive Origin where
  | outside (cells : Array Cell)
  | inside (p : Place)
  deriving DecidableEq, Repr

/-- Copies the first `n` bytes to `target`. -/
def Origin.copy (origin : Origin) (target : Place) (n : Nat) (m : Memory) : Memory :=
  match origin with
  | .outside cells => m.store target n fun i => cells[i]?.getD (.byte 0)
  | .inside p => m.move p target n

namespace Heap

variable {σ : Type} [PageSource σ]

/-- Gives out a block of `total` bytes that starts with the first `initialized` bytes of the origin
and is zero after them; nothing without an origin. -/
def duplicate (origin : Option Origin) (initialized total : UInt64) : HeapM σ (Option Place) :=
  match origin with
  | none => return none
  | some origin => do
    match ← acquire total with
    | none => return none
    | some copy =>
      let copied := min initialized total
      updateMemory fun m =>
        (origin.copy copy copied.toNat m).store (copy + copied.toNat) (total - copied).toNat
          fun _ => .byte 0
      return some copy

end Heap

end CountedHeap
