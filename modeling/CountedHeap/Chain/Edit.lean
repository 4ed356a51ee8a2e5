import CountedHeap.Chain.Basic

namespace CountedHeap

/-- A chain together with the memory of its nodes. -/
structure NodeList where
  memory : Memory
  chain : Chain

namespace NodeList

inductive Edit where
  | append (size : UInt64)
  | insertAfter (node : Nat) (size : UInt64)
  deriving DecidableEq, Repr

def empty : NodeList := ⟨.empty, .empty⟩

/-- The place of the node that was created as number `index`. -/
def place (l : NodeList) (index : Nat) : Except Fault Place :=
  if index < l.memory.regions.size then .ok ⟨index, 0⟩
  else .error (.indexOutOfBounds index l.memory.regions.size)

/-- Creates an unlinked node in the next segment. -/
def create (m : Memory) (size : UInt64) : Memory :=
  (m.grant headerSize).setHeader m.nextBase ⟨none, size, 0⟩

def edit (l : NodeList) : Edit → Except Fault NodeList
  | .append size => do
    let (chain, memory) ← l.chain.append (create l.memory size) l.memory.nextBase
    return ⟨memory, chain⟩
  | .insertAfter index size => do
    let previous ← l.place index
    let node := l.memory.nextBase
    let memory := create l.memory size
    let memory := memory.setNext node (memory.next previous)
    let memory := memory.setNext previous (some node)
    return ⟨memory, ← l.chain.insertAfter memory previous node⟩

/-- The sizes of the nodes in the order of the chain. -/
def sizes (l : NodeList) : Except Fault (List UInt64) := do
  return (← l.chain.nodes l.memory).map l.memory.size

end NodeList

end CountedHeap
