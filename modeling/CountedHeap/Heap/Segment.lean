import CountedHeap.Heap.Basic

namespace CountedHeap

/-- The length of a segment that holds a block of `request` bytes and is not below `minimum`. -/
def segmentLength (request minimum : UInt64) : Except Refusal UInt64 :=
  match Size.add? request headerSize with
  | some len => .ok (max len minimum)
  | none => .error (.sizeOverflow request)

namespace Heap

variable {σ : Type} [PageSource σ]

def askPages (len : UInt64) : HeapM σ Reply :=
  modifyGet fun h =>
    let (reply, source) := PageSource.ask h.source len
    (reply, { h with source })

/-- Maps a segment and writes its one free block; the answer is the segment's base, where the header
of that block lies. -/
def mapSegment (len : UInt64) : HeapM σ Place := do
  if len ≤ headerSize then
    throw (.faulted .segmentTooShort)
  let reply ← askPages len
  let base := (← getMemory).nextBase
  if reply.granted then
    if reply.fromSystem then
      record (.pagesMapped base len)
    let size ← check (Size.subtract len headerSize)
    updateMemory fun m => (m.grant len).setHeader base ⟨none, size, 0⟩
    return base
  else
    if reply.fromSystem then
      record (.pagesRefused len)
    throw (.refused (.mapFailed len))

/-- Counts a segment, then its bytes. -/
def countSegment (len : UInt64) : HeapM σ Unit := do
  let segments ← check (Size.add (← get).segments 1)
  modify fun h => { h with segments }
  let mappedBytes ← check (Size.add (← get).mappedBytes len)
  modify fun h => { h with mappedBytes }

/-- Takes a new segment into the heap; the answer is its free block. -/
def addSegment (len : UInt64) : HeapM σ Place := do
  let first ← mapSegment len
  let heap ← get
  let (chain, memory) ← check (heap.chain.append heap.memory first)
  setMemory memory
  setChain chain
  countSegment len
  record (.segmentAdded first len (← get).segments)
  return first

end Heap

end CountedHeap
