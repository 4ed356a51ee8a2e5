import CountedHeap.Heap.Basic

namespace CountedHeap.Heap

variable {σ : Type}

/-- The place that a payload pointer names. -/
def payloadOf (w : Word) : HeapM σ Place :=
  match w with
  | .address (.place p) => return p
  | _ => throw (.faulted (.notPayload w))

/-- The header of a payload, which has to lie on a word boundary. -/
def headerOf (payload : Place) : HeapM σ Place :=
  if payload.isAligned then return payload.header
  else throw (.faulted (.notPayload (.ofPlace payload)))

/-- Takes one more reference. -/
def retain (payload : Place) : HeapM σ Unit := do
  let h ← headerOf payload
  discard (check (Size.add ((← getMemory).refcount h) 1))
  updateMemory fun m => m.addRefcount h 1

/-- Gives up a reference; a count of zero stays. -/
def release (payload : Place) : HeapM σ Unit := do
  let h ← headerOf payload
  updateMemory fun m => if m.refcount h = 0 then m else m.addRefcount h (-1)

def refcount (payload : Place) : HeapM σ UInt64 := do
  let h ← headerOf payload
  return (← getMemory).refcount h

/-- There is exactly one reference. -/
def isUnique (payload : Place) : HeapM σ Bool :=
  return (← refcount payload) == 1

/-- Bytes of the block's payload. -/
def usableSize (payload : Place) : HeapM σ UInt64 := do
  let h ← headerOf payload
  return (← getMemory).size h

end CountedHeap.Heap
