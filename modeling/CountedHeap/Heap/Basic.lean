import CountedHeap.Chain.Basic
import CountedHeap.Event
import CountedHeap.Pages.Source

namespace CountedHeap

/-- The least length of a segment: a header and a word. -/
def minSegmentSize : UInt64 := headerSize + wordSize

/-- The settings of a heap: the least length of a segment that it maps. -/
structure Config where
  segmentSize : UInt64
  min_le_segmentSize : minSegmentSize ≤ segmentSize
  deriving DecidableEq, Repr

namespace Config

/-- Segments of `size` bytes, or of the least length when that is more. -/
def ofSegmentSize (size : UInt64) : Config :=
  if h : minSegmentSize ≤ size then ⟨size, h⟩ else ⟨minSegmentSize, UInt64.le_refl _⟩

def default : Config := ofSegmentSize 4096

def pageSized : Config := ofSegmentSize pageSize

def describe (layout : Text.Layout) (c : Config) : String :=
  Text.record layout "HeapConfig" [("segment_size", toString c.segmentSize)]

end Config

/-- A heap on the pages of a source `σ`. -/
structure Heap (σ : Type) where
  config : Config
  source : σ
  memory : Memory
  chain : Chain
  /-- Segments mapped so far. -/
  segments : UInt64
  /-- Sum of their lengths. -/
  mappedBytes : UInt64
  log : Array Event

/-- An operation keeps the state it has reached also when it fails. -/
abbrev HeapM (σ : Type) := EStateM Failure (Heap σ)

namespace Heap

variable {σ : Type}

def empty (config : Config) (source : σ) : Heap σ :=
  ⟨config, source, .empty, .empty, 0, 0, #[]⟩

def getMemory : HeapM σ Memory :=
  return (← get).memory

def setMemory (memory : Memory) : HeapM σ Unit :=
  modify fun h => { h with memory }

def updateMemory (f : Memory → Memory) : HeapM σ Unit :=
  modify fun h => { h with memory := f h.memory }

def setChain (chain : Chain) : HeapM σ Unit :=
  modify fun h => { h with chain }

def record (event : Event) : HeapM σ Unit :=
  modify fun h => { h with log := h.log.push event }

/-- A checked step of an operation. -/
def check {α : Type} (x : Except Fault α) : HeapM σ α :=
  match x with
  | .ok a => pure a
  | .error fault => throw (.faulted fault)

/-- A step that may refuse. -/
def orRefuse {α : Type} (x : Except Refusal α) : HeapM σ α :=
  match x with
  | .ok a => pure a
  | .error cause => throw (.refused cause)

end Heap

end CountedHeap
