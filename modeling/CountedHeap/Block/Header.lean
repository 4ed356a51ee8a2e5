import CountedHeap.Memory.Basic

namespace CountedHeap

structure Header where
  next : Option Place
  size : UInt64
  refcount : UInt64
  deriving DecidableEq, Repr

namespace Memory

/-- The block linked after the one at `h`. -/
def next (m : Memory) (h : Place) : Option Place :=
  (m.word h).link

/-- Payload bytes of the block at `h`. -/
def size (m : Memory) (h : Place) : UInt64 :=
  (m.word (h + 8)).toNumber

def refcount (m : Memory) (h : Place) : UInt64 :=
  (m.word (h + 16)).toNumber

/-- A block without references is free. -/
def isFree (m : Memory) (h : Place) : Bool :=
  m.refcount h == 0

def setNext (m : Memory) (h : Place) (next : Option Place) : Memory :=
  m.setWord h (.ofLink next)

def setSize (m : Memory) (h : Place) (size : UInt64) : Memory :=
  m.setWord (h + 8) (.number size)

def setRefcount (m : Memory) (h : Place) (count : UInt64) : Memory :=
  m.setWord (h + 16) (.number count)

/-- Adds to the count. What stands there is a number for every block of a heap; a pointer into a
payload may name any word. -/
def addRefcount (m : Memory) (h : Place) (d : Int) : Memory :=
  m.addToWord (h + 16) d

def header (m : Memory) (h : Place) : Header :=
  ⟨m.next h, m.size h, m.refcount h⟩

def setHeader (m : Memory) (h : Place) (header : Header) : Memory :=
  ((m.setNext h header.next).setSize h header.size).setRefcount h header.refcount

/-- At most `n` blocks, from `start` along the links. -/
def follow (m : Memory) : Nat → Option Place → List Place
  | 0, _ => []
  | _ + 1, none => []
  | n + 1, some h => h :: m.follow n (m.next h)

/-- Adding to a count is addition modulo `2 ^ 64`. -/
@[simp] theorem refcount_addRefcount (m : Memory) (h : Place) (d : Int) :
    (m.addRefcount h d).refcount h = m.refcount h + UInt64.ofInt d :=
  m.toNumber_word_addToWord (h + 16) d

end Memory

end CountedHeap
