import CountedHeap.Block.Split
import CountedHeap.Heap.Segment

namespace CountedHeap.Heap

variable {σ : Type}

/-- A block can be given out for `size` bytes. -/
def fits (m : Memory) (size : UInt64) (h : Place) : Bool :=
  m.isFree h && size ≤ m.size h

def findFree (size : UInt64) : HeapM σ (Option Place) := do
  let heap ← get
  check (heap.chain.start.find? heap.memory (fits heap.memory size))

/-- Splits the block at `h`, which keeps `size` bytes, and links the remainder into the chain. -/
def splitBlock (h : Place) (size : UInt64) : HeapM σ Unit := do
  let cut ← check (Cut.plan h ((← getMemory).size h) size)
  updateMemory fun m => m.split h size cut
  record (.blockSplit h size cut.remainder cut.size)
  let heap ← get
  setChain (← check (heap.chain.insertAfter heap.memory h cut.remainder))

/-- Takes the free block at `h` for `size` bytes; the answer is its payload. -/
def takeBlock (h : Place) (size : UInt64) : HeapM σ Place := do
  let available := (← getMemory).size h
  if (splitThreshold size).any (· ≤ available) then
    splitBlock h size
  updateMemory fun m => m.setRefcount h 1
  return h.payload

variable [PageSource σ]

/-- An empty heap maps its first segment, whatever is requested. -/
def ensureMapped : HeapM σ Unit := do
  let heap ← get
  if heap.chain.isEmpty then
    discard (addSegment heap.config.segmentSize)

/-- The block for a request: the first that fits, or that of a new segment. -/
def chooseBlock (size : UInt64) : HeapM σ Place := do
  match ← findFree size with
  | some h => return h
  | none => addSegment (← orRefuse (segmentLength size (← get).config.segmentSize))

/-- Gives out a block of at least `size` bytes with one reference; nothing for no bytes. -/
def acquire (size : UInt64) : HeapM σ (Option Place) :=
  if size = 0 then return none
  else do
    ensureMapped
    let h ← chooseBlock size
    return some (← takeBlock h size)

end CountedHeap.Heap
