import CountedHeap.Block.Header
import CountedHeap.Text.Record

namespace CountedHeap

def FunctionDescriptor.describe (f : FunctionDescriptor) : String :=
  Text.record .line "FunctionDescriptor" [("arity", toString f.arity)]

/-- Word `k` of a closure. -/
def closureWord (f : FunctionDescriptor) (slots : Array Word) (k : Nat) : Word :=
  if k = 0 then .function f else slots[k - 1]?.getD .null

namespace Memory

/-- How many slots the function of a closure has. Where its descriptor is a place of the heap, the
arity stands there in four bytes. -/
def arity (m : Memory) (closure : Place) : Nat :=
  match m.word closure with
  | .address (.code f 0) => f.arity.toNat
  | .address (.place p) => littleEndian (fun i => (m.cell (p + i)).value) 0 4
  | _ => 0

/-- The slots from number `slot` on, at most `n`, up to the first zero word. -/
def capturesFrom (m : Memory) (closure : Place) (slot : Nat) : Nat → List Word
  | 0 => []
  | n + 1 =>
    let w := m.word (closure + 8 * slot)
    if w = .null then [] else w :: m.capturesFrom closure (slot + 1) n

/-- The captured words of a closure: its slots in order, up to the first that is zero. -/
def captures (m : Memory) (closure : Place) : List Word :=
  m.capturesFrom closure 1 (m.arity closure)

/-- Writes a closure of `words` words: the descriptor, then the slots, then zeros. -/
def writeClosure (m : Memory) (closure : Place) (f : FunctionDescriptor) (slots : Array Word)
    (words : Nat) : Memory :=
  words.fold (fun k _ m => m.setWord (closure + 8 * k) (closureWord f slots k)) m

end Memory

end CountedHeap
