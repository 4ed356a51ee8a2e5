import CountedHeap.Heap.Basic

namespace CountedHeap

structure BlockInfo where
  payload : Place
  size : UInt64
  refcount : UInt64
  deriving DecidableEq, Repr

structure Stats where
  segments : UInt64
  mappedBytes : UInt64
  blocks : UInt64
  freeBlocks : UInt64
  liveBytes : UInt64
  freeBytes : UInt64
  deriving DecidableEq, Repr

namespace Stats

def zero : Stats := ⟨0, 0, 0, 0, 0, 0⟩

/-- Counts one more block. -/
def count (s : Stats) (b : BlockInfo) : Except Fault Stats := do
  let blocks ← Size.add s.blocks 1
  if b.refcount = 0 then
    return { s with
      blocks
      freeBlocks := ← Size.add s.freeBlocks 1
      freeBytes := ← Size.add s.freeBytes b.size }
  else
    return { s with blocks, liveBytes := ← Size.add s.liveBytes b.size }

def describe (s : Stats) : String :=
  Text.record .line "HeapStats"
    [("segments", toString s.segments), ("mapped_bytes", toString s.mappedBytes),
      ("blocks", toString s.blocks), ("free_blocks", toString s.freeBlocks),
      ("live_bytes", toString s.liveBytes), ("free_bytes", toString s.freeBytes)]

end Stats

namespace Heap

variable {σ : Type}

/-- The blocks in the order of the chain. -/
def blocks (h : Heap σ) : Except Fault (List BlockInfo) := do
  let nodes ← h.chain.nodes h.memory
  return nodes.map fun node => ⟨node.payload, h.memory.size node, h.memory.refcount node⟩

def stats (h : Heap σ) : Except Fault Stats := do
  (← h.blocks).foldlM Stats.count
    { Stats.zero with segments := h.segments, mappedBytes := h.mappedBytes }

def describe (layout : Text.Layout) (h : Heap σ) : String :=
  Text.record layout "Heap"
    [("config", h.config.describe layout), ("segments", toString h.segments),
      ("mapped_bytes", toString h.mappedBytes), ("blocks", toString h.chain.length)]

end Heap

end CountedHeap
