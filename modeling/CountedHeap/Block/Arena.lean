import CountedHeap.Block.Split

namespace CountedHeap

structure Arena where
  memory : Memory
  /-- Number of blocks. -/
  count : Nat

namespace Arena

def origin : Place := ⟨0, 0⟩

/-- One free block of `size` payload bytes. -/
def ofBlock (size : UInt64) : Arena :=
  ⟨Memory.empty.setHeader origin ⟨none, size, 0⟩, 1⟩

/-- The headers of the blocks, in the order of their links. -/
def headers (a : Arena) : List Place :=
  a.memory.follow a.count (some origin)

/-- Splits the block at an index of the list of blocks, which keeps `size` bytes. -/
def split (index : Nat) (size : UInt64) : EStateM Fault Arena Unit := do
  let a ← get
  let some h := a.headers[index]? | throw (.indexOutOfBounds index a.headers.length)
  let cut ← MonadExcept.ofExcept (Cut.plan h (a.memory.size h) size)
  set (⟨a.memory.split h size cut, a.count + 1⟩ : Arena)

/-- The arena after each of the splits; the first fault ends the list. -/
def trace (a : Arena) : List (Nat × UInt64) → List (Except Fault Arena)
  | [] => []
  | (index, size) :: rest =>
    match split index size a with
    | .ok _ b => .ok b :: b.trace rest
    | .error fault _ => [.error fault]

end Arena

end CountedHeap
