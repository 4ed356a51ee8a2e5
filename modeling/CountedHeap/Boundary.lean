import CountedHeap.Closure.Release
import CountedHeap.Heap.Count
import CountedHeap.Heap.Duplicate

namespace CountedHeap.Boundary

variable {σ : Type}

/-- Ends the program on a fault. -/
def sealed {α : Type} (x : HeapM σ α) : HeapM σ α :=
  tryCatch x fun
    | .faulted fault => throw (.aborted (.escaped fault))
    | failure => throw failure

/-- Answers a refusal with null, and logs it. -/
def orNull (x : HeapM σ (Option Place)) : HeapM σ (Option Place) :=
  tryCatch x fun
    | .refused cause => do
      Heap.record (.allocationFailed cause)
      return none
    | failure => throw failure

def allocate [PageSource σ] (size : UInt64) : HeapM σ (Option Place) :=
  sealed (orNull (Heap.acquire size))

def copy [PageSource σ] (origin : Option Origin) (initialized total : UInt64) :
    HeapM σ (Option Place) :=
  sealed (orNull (Heap.duplicate origin initialized total))

def retain (w : Word) : HeapM σ Unit :=
  if w = .null then return else sealed (Heap.payloadOf w >>= Heap.retain)

def release (w : Word) : HeapM σ Unit :=
  if w = .null then return else sealed (Heap.payloadOf w >>= Heap.release)

def isUnique (w : Word) : HeapM σ Bool :=
  if w = .null then return false else sealed (Heap.payloadOf w >>= Heap.isUnique)

def releaseClosure (w : Word) : HeapM σ Unit :=
  sealed (Heap.releaseClosure w)

end CountedHeap.Boundary
