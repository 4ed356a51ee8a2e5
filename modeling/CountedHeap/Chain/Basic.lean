import CountedHeap.Block.Header
import CountedHeap.Size.Rounding

/-!
The chain of blocks: a singly linked list whose links lie in the block headers. The chain itself
keeps its two ends and its length. A walk over it counts the nodes still to come, so a chain with
more nodes than its length faults instead of being walked for ever.
-/

namespace CountedHeap

structure Chain where
  head : Option Place
  tail : Option Place
  length : UInt64
  deriving DecidableEq, Repr

/-- A position in a walk: the node to be visited next, and how many are still to come. -/
structure Cursor where
  current : Option Place
  remaining : Nat
  deriving DecidableEq, Repr

namespace Chain

def empty : Chain := ⟨none, none, 0⟩

def isEmpty (c : Chain) : Bool := c.length == 0

/-- Links `node` after the last node. -/
def append (c : Chain) (m : Memory) (node : Place) : Except Fault (Chain × Memory) := do
  let m := m.setNext node none
  let length ← Size.add c.length 1
  match c.tail with
  | some tail => return (⟨c.head, some node, length⟩, m.setNext tail (some node))
  | none => return (⟨some node, some node, length⟩, m)

/-- The chain once `node` is linked right after `previous`; after the tail it is the new tail. -/
def insertAfter (c : Chain) (m : Memory) (previous node : Place) : Except Fault Chain := do
  if m.next previous ≠ some node then
    throw .brokenLink
  let length ← Size.add c.length 1
  return ⟨c.head, if c.tail = some previous then some node else c.tail, length⟩

def start (c : Chain) : Cursor := ⟨c.head, c.length.toNat⟩

end Chain

namespace Cursor

/-- The node at the cursor, and the cursor after it. -/
def next (c : Cursor) (m : Memory) : Except Fault (Option (Place × Cursor)) :=
  match c.current, c.remaining with
  | none, _ => .ok none
  | some _, 0 => .error .subtractOverflow
  | some node, n + 1 => .ok (some (node, ⟨m.next node, n⟩))

/-- How many nodes are still to come: at least, and at most. -/
def sizeHint (c : Cursor) : Nat × Option Nat := (c.remaining, some c.remaining)

/-- At most `count` nodes, and the cursor after them. -/
def take (m : Memory) : Nat → Cursor → Except Fault (List Place × Cursor)
  | 0, c => .ok ([], c)
  | count + 1, c => do
    match ← c.next m with
    | none => return ([], c)
    | some (node, c) =>
      let (nodes, c) ← take m count c
      return (node :: nodes, c)

/-- All nodes from the cursor on. -/
def toList (m : Memory) (c : Cursor) : Except Fault (List Place) := do
  return (← take m (c.remaining + 1) c).1

/-- The first node from `current` on that passes the test, among `remaining` nodes. -/
def search (m : Memory) (test : Place → Bool) : Nat → Option Place → Except Fault (Option Place)
  | _, none => .ok none
  | 0, some _ => .error .subtractOverflow
  | n + 1, some node =>
    if test node then .ok (some node) else search m test n (m.next node)

/-- The first node from the cursor on that passes the test. -/
def find? (m : Memory) (test : Place → Bool) (c : Cursor) : Except Fault (Option Place) :=
  search m test c.remaining c.current

end Cursor

namespace Chain

/-- The nodes of the chain in order. -/
def nodes (c : Chain) (m : Memory) : Except Fault (List Place) :=
  c.start.toList m

end Chain

end CountedHeap
