import CountedHeap.Closure.Captures
import CountedHeap.Heap.Basic

/-!
Releasing a closure. When its last reference goes, the closures it captured are released too, in the
order of the slots, and then its own count drops to zero. Nesting may be deep, so the walk keeps the
tasks still to be done in a list of its own.
-/

namespace CountedHeap

/-- What giving up one reference to a word asks for. -/
inductive Drop where
  | nothing
  | lower (header : Place)
  | last (closure : Place)
  deriving DecidableEq, Repr

/-- Tagged words and null are no references. A closure without references was released too often. -/
def Drop.of (m : Memory) (w : Word) : Except Failure Drop :=
  if w.isTagged || w == .null then .ok .nothing
  else
    match w with
    | .address (.place p) =>
      if p.isAligned then
        let count := m.refcount p.header
        if count = 0 then .error (.aborted (.doubleRelease p))
        else if count = 1 then .ok (.last p)
        else .ok (.lower p.header)
      else .error (.faulted (.notPayload w))
    | _ => .error (.faulted (.notPayload w))

inductive Task where
  /-- Give up one reference to a word. -/
  | release (w : Word)
  /-- Lower the count of a block whose captures have been released. -/
  | retire (header : Place)
  deriving DecidableEq, Repr

/-- A walk over the closures that are torn down: the memory, and the tasks still to be done. -/
structure Teardown where
  memory : Memory
  pending : List Task

namespace Teardown

/-- The tasks of tearing a closure down. -/
def visit (m : Memory) (closure : Place) : List Task :=
  (m.captures closure).map .release ++ [.retire closure.header]

/-- Lowers the count of a block. -/
def retire (m : Memory) (header : Place) : Except Failure Memory :=
  if m.refcount header = 0 then .error (.faulted .subtractOverflow)
  else .ok (m.addRefcount header (-1))

/-- Does the first task. -/
def step (t : Teardown) : Except Failure Teardown :=
  match t.pending with
  | [] => .ok t
  | .release w :: rest => do
    match ← Drop.of t.memory w with
    | .nothing => return ⟨t.memory, rest⟩
    | .lower header => return ⟨t.memory.addRefcount header (-1), rest⟩
    | .last closure => return ⟨t.memory, visit t.memory closure ++ rest⟩
  | .retire header :: rest => do
    return ⟨← retire t.memory header, rest⟩

/-- Does at most `n` tasks; the answer is the memory reached, and why the walk stopped early. -/
def run : Nat → Teardown → Memory × Option Failure
  | 0, t => (t.memory, if t.pending.isEmpty then none else some .endless)
  | n + 1, t =>
    if t.pending.isEmpty then (t.memory, none)
    else
      match t.step with
      | .ok t' => run n t'
      | .error failure => (t.memory, some failure)

/-- More tasks than a walk over `blocks` blocks that ends can do. Between two changes of a count no
closure is visited twice, a count changes less than `2 ^ 64` times, and a visit leaves at most
`2 ^ 32` tasks. -/
def bound (blocks : Nat) : Nat :=
  (blocks * UInt64.size + 1) * (blocks + 1) * UInt32.size

end Teardown

namespace Heap

variable {σ : Type}

/-- Stops an operation; a double release is logged. -/
def fail {α : Type} (failure : Failure) : HeapM σ α := do
  if let .aborted (.doubleRelease payload) := failure then
    record (.doubleRelease payload)
  throw failure

/-- A step that may fail. -/
def attempt {α : Type} (x : Except Failure α) : HeapM σ α :=
  match x with
  | .ok a => pure a
  | .error failure => fail failure

/-- Walks over the closures below one that is torn down. -/
def tearDown (closure : Place) : HeapM σ Unit := do
  let heap ← get
  let walk : Teardown := ⟨heap.memory, Teardown.visit heap.memory closure⟩
  let (memory, stopped) := walk.run (Teardown.bound heap.chain.length.toNat)
  setMemory memory
  if let some failure := stopped then
    fail failure

/-- Gives up one reference to a closure. When all its captures are tagged there is
nothing to walk over. -/
def releaseClosure (w : Word) : HeapM σ Unit := do
  match ← attempt (Drop.of (← getMemory) w) with
  | .nothing => return
  | .lower header => updateMemory fun m => m.addRefcount header (-1)
  | .last closure =>
    if ((← getMemory).captures closure).all Word.isTagged then
      setMemory (← attempt (Teardown.retire (← getMemory) closure.header))
    else
      tearDown closure

end Heap

end CountedHeap
