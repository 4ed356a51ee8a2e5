import CountedHeap.Boundary
import CountedHeap.Program.Command

namespace CountedHeap.Program

inductive Interface where
  | direct
  | boundary
  deriving DecidableEq, Repr

structure State (σ : Type) where
  heap : Heap σ
  /-- What the commands that ask for blocks were given, null included. -/
  handles : Array Word

abbrev ProgramM (σ : Type) := EStateM Trouble (State σ)

variable {σ : Type}

def State.start (config : Config) (source : σ) : State σ :=
  ⟨.empty config source, #[]⟩

def onHeap {α : Type} (x : HeapM σ α) : ProgramM σ α
  | ⟨heap, handles⟩ =>
    match x heap with
    | .ok a heap => .ok a ⟨heap, handles⟩
    | .error failure heap => .error (.failed failure) ⟨heap, handles⟩

def fault {α : Type} (f : Fault) : ProgramM σ α :=
  throw (.failed (.faulted f))

/-- The handle at an index. -/
def handleAt (index : Nat) : ProgramM σ Word := do
  let handles := (← get).handles
  match handles[index]? with
  | some w => return w
  | none => fault (.indexOutOfBounds index handles.size)

def resolve : Pointer → ProgramM σ Word
  | .null => return .null
  | .raw value => return .number value
  | .handle index offset => return (← handleAt index).advance offset

/-- Null is no argument. -/
def notNull (w : Word) : ProgramM σ Unit :=
  if w = .null then throw .nullPointer else return

/-- The place that a word points to; null and other numbers have none. -/
def placeOf (w : Word) : ProgramM σ Place := do
  notNull w
  onHeap (Heap.payloadOf w)

/-- Keeps what a request gives as a handle, null when it fails. -/
def keep (x : ProgramM σ Word) : ProgramM σ Answer :=
  tryCatch
    (do
      let w ← x
      modify fun s => { s with handles := s.handles.push w }
      return .pointer w)
    fun trouble => do
      modify fun s => { s with handles := s.handles.push .null }
      throw trouble

def repeatM (x : ProgramM σ Unit) : Nat → ProgramM σ Unit
  | 0 => return
  | n + 1 => do
    x
    repeatM x n

namespace Interface

/-- Payload bytes of a block. The boundary does not look at the pointer's alignment. -/
def usableSize (i : Interface) (payload : Place) : HeapM σ UInt64 :=
  match i with
  | .direct => Heap.usableSize payload
  | .boundary => return (← Heap.getMemory).size payload.header

def refcount (i : Interface) (payload : Place) : HeapM σ UInt64 :=
  match i with
  | .direct => Heap.refcount payload
  | .boundary => return (← Heap.getMemory).refcount payload.header

/-- Takes references; only the boundary takes null. -/
def retain (i : Interface) (w : Word) (times : Nat) : ProgramM σ Unit := do
  match i with
  | .direct =>
    notNull w
    repeatM (onHeap (Heap.payloadOf w >>= Heap.retain)) times
  | .boundary => repeatM (onHeap (Boundary.retain w)) times

/-- Gives up references; only the boundary takes null. -/
def release (i : Interface) (w : Word) (times : Nat) : ProgramM σ Unit := do
  match i with
  | .direct =>
    notNull w
    repeatM (onHeap (Heap.payloadOf w >>= Heap.release)) times
  | .boundary => repeatM (onHeap (Boundary.release w)) times

def isUnique (i : Interface) (w : Word) : ProgramM σ Bool := do
  match i with
  | .direct => onHeap (Heap.isUnique (← placeOf w))
  | .boundary => onHeap (Boundary.isUnique w)

def releaseClosure (i : Interface) (w : Word) : ProgramM σ Unit :=
  match i with
  | .direct => onHeap (Heap.releaseClosure w)
  | .boundary => onHeap (Boundary.releaseClosure w)

def summary (i : Interface) (h : Heap σ) : Except Fault Summary :=
  match i with
  | .direct => return .full (← h.stats)
  | .boundary => do
    let blocks ← h.blocks
    return .brief blocks.length (blocks.countP fun b => b.refcount == 0)

section Requests

variable [PageSource σ]

def acquire (i : Interface) (size : UInt64) : HeapM σ (Option Place) :=
  match i with
  | .direct => Heap.acquire size
  | .boundary => Boundary.allocate size

def duplicate (i : Interface) (origin : Option Origin) (initialized total : UInt64) :
    HeapM σ (Option Place) :=
  match i with
  | .direct => Heap.duplicate origin initialized total
  | .boundary => Boundary.copy origin initialized total

/-- A new closure of `words` words. -/
def closure (i : Interface) (f : FunctionDescriptor) (slots : Array Word) (words : Nat) :
    HeapM σ Word := do
  match ← i.acquire (UInt64.ofNat (8 * words)) with
  | none => return .null
  | some p =>
    Heap.updateMemory fun m => m.writeClosure p f slots words
    return .ofPlace p

/-- Closures around `w`, each in the first slot of the next; null ends the nesting. -/
def nest (i : Interface) (f : FunctionDescriptor) : Nat → Word → HeapM σ Word
  | 0, w => return w
  | depth + 1, w => do
    let outer ← i.closure f #[w] (1 + f.arity.toNat)
    if outer = .null then return .null else i.nest f depth outer

/-- Asks for a block several times, and goes on when a request is refused; the
answer is the last. -/
def acquireTimes (i : Interface) (size : UInt64) : Nat → ProgramM σ Answer
  | 0 => return .nothing
  | 1 => keep (return .ofLink (← onHeap (i.acquire size)))
  | n + 2 => do
    tryCatch (discard (keep (return .ofLink (← onHeap (i.acquire size))))) fun trouble =>
      if trouble.isFinal then throw trouble else return
    i.acquireTimes size (n + 1)

end Requests

/-- The bytes that a source has: its own, or those of its block from the pointer on. -/
def available (i : Interface) : CopySource → ProgramM σ Nat
  | .bytes values => return values.size
  | .pointer (.handle index offset) => do
    let block ← placeOf (← handleAt index)
    return (← onHeap (i.usableSize block)).toNat - offset
  | .pointer _ => return 0

/-- The place `offset` bytes into a block, when `length` bytes from there on belong to it. -/
def range (i : Interface) (p : Pointer) (offset length : Nat) : ProgramM σ Place := do
  let payload ← placeOf (← resolve p)
  let size ← onHeap (i.usableSize payload)
  if size.toNat < offset + length then
    throw .outOfRange
  return payload + offset

end Interface

/-- Where a source copies from; nothing for null. -/
def originOf : CopySource → ProgramM σ (Option Origin)
  | .bytes values => return some (.outside (values.map .byte))
  | .pointer p => do
    match ← resolve p with
    | .address (.place p) => return some (.inside p)
    | w => if w = .null then return none else fault (.notPayload w)

def execute [PageSource σ] (i : Interface) : Command → ProgramM σ Answer
  | .acquire size times => i.acquireTimes size times
  | .duplicate source initialized total => keep do
    let origin ← originOf source
    if origin.isSome then
      if (← i.available source) < (min initialized total).toNat then
        throw .outOfRange
    return .ofLink (← onHeap (i.duplicate origin initialized total))
  | .retain p times => do
    i.retain (← resolve p) times
    return .nothing
  | .release p times => do
    i.release (← resolve p) times
    return .nothing
  | .isUnique p => do
    return .truth (← i.isUnique (← resolve p))
  | .releaseClosure p times => do
    let w ← resolve p
    repeatM (i.releaseClosure w) times
    return .nothing
  | .refcount p => do
    return .number (← onHeap (i.refcount (← placeOf (← resolve p))))
  | .usableSize p => do
    return .number (← onHeap (i.usableSize (← placeOf (← resolve p))))
  | .closure f slots words => keep do
    let slots ← slots.mapM resolve
    let words := words.getD (1 + max f.arity.toNat slots.length)
    onHeap (i.closure f slots.toArray words)
  | .nest p f depth => keep do
    let w ← resolve p
    onHeap (i.nest f depth w)
  | .read p offset length => do
    let start ← i.range p offset length
    return .bytes ((← onHeap Heap.getMemory).bytes start length)
  | .write p offset bytes => do
    let start ← i.range p offset bytes.size
    onHeap (Heap.updateMemory (Origin.copy (.outside (bytes.map .byte)) start bytes.size))
    return .nothing
  | .fill p offset byte length => do
    let start ← i.range p offset length
    onHeap (Heap.updateMemory fun m => m.store start length fun _ => .byte byte)
    return .nothing
  | .words p offset count => do
    let start ← i.range p offset (8 * count)
    return .words ((← onHeap Heap.getMemory).words start count)
  | .blocks => do
    return .blocks (← onHeap (Heap.check (← get).heap.blocks))
  | .stats => do
    return .summary (← onHeap (Heap.check (i.summary (← get).heap)))
  | .describe layout =>
    match i with
    | .direct => return .text ((← get).heap.describe layout)
    | .boundary => return .nothing
  | .config =>
    match i with
    | .direct => return .number (← get).heap.config.segmentSize
    | .boundary => return .nothing

def State.clearLog (s : State σ) : State σ :=
  { s with heap := { s.heap with log := #[] } }

/-- One command, with a log of its own. -/
def step [PageSource σ] (i : Interface) (c : Command) (s : State σ) : Step × State σ :=
  match execute i c s.clearLog with
  | .ok answer s => (⟨.ok answer, i.summary s.heap, s.heap.log⟩, s)
  | .error trouble s => (⟨.error trouble, i.summary s.heap, s.heap.log⟩, s)

/-- Runs the commands in order, up to the first after which none can follow. -/
def run [PageSource σ] (i : Interface) : List Command → State σ → List Step × State σ
  | [], s => ([], s)
  | c :: rest, s =>
    let (first, s) := step i c s
    match first.result with
    | .error trouble =>
      if trouble.isFinal then ([first], s)
      else
        let (steps, s) := run i rest s
        (first :: steps, s)
    | .ok _ =>
      let (steps, s) := run i rest s
      (first :: steps, s)

end CountedHeap.Program
