import CountedHeap.Memory.Word
import CountedHeap.Text.Record

/-!
How an operation on a heap can fail. A refusal leaves the heap usable and is reported to the caller.
A fault is a broken rule found by a check. An abort ends the program that uses the heap.
-/

namespace CountedHeap

/-- Why no block was given. -/
inductive Refusal where
  | mapFailed (len : UInt64)
  | sizeOverflow (size : UInt64)
  deriving DecidableEq, Repr

/-- A check that failed. -/
inductive Fault where
  | alignmentNotPowerOfTwo
  | segmentTooShort
  | blockTooSmallToSplit
  | addOverflow
  | subtractOverflow
  | brokenLink
  | notPayload (w : Word)
  | indexOutOfBounds (index count : Nat)
  deriving DecidableEq, Repr

/-- What ends the program. A fault aborts where it cannot be reported any further. -/
inductive Abort where
  | doubleRelease (payload : Place)
  | escaped (fault : Fault)
  deriving DecidableEq, Repr

inductive Failure where
  | refused (cause : Refusal)
  | faulted (fault : Fault)
  | aborted (cause : Abort)
  /-- A teardown that goes on for ever. -/
  | endless
  deriving DecidableEq, Repr

namespace Refusal

def message : Refusal → String
  | .mapFailed len => s!"failed to map a segment of {len} bytes"
  | .sizeOverflow size => s!"allocation request of {size} bytes overflows the address space"

def name : Refusal → String
  | .mapFailed _ => "MapFailed"
  | .sizeOverflow _ => "SizeOverflow"

/-- The refusal written as a record. -/
def describe : Refusal → String
  | .mapFailed len => Text.record .line "MapFailed" [("len", toString len)]
  | .sizeOverflow size => Text.record .line "SizeOverflow" [("size", toString size)]

end Refusal

namespace Fault

/-- The text of a word in a message: places by segment and offset, numbers in base sixteen. -/
def wordText : Word → String
  | .address (.place p) => toString p
  | w => "0x" ++ String.ofList (Nat.toDigits 16 w.toNumber.toNat)

def message : Fault → String
  | .alignmentNotPowerOfTwo => "assertion failed: aligment.is_power_of_two()"
  | .segmentTooShort => "assertion failed: len > HEADER_SIZE"
  | .blockTooSmallToSplit => "assertion failed: block.size >= used + HEADER_SIZE + WORD_SIZE"
  | .addOverflow => "attempt to add with overflow"
  | .subtractOverflow => "attempt to subtract with overflow"
  | .brokenLink => "assertion `left == right` failed"
  | .notPayload w => s!"{wordText w} is not a payload pointer"
  | .indexOutOfBounds index count =>
    s!"index out of bounds: the len is {count} but the index is {index}"

end Fault

namespace Abort

def message : Abort → String
  | .doubleRelease payload =>
    s!"double release of closure {payload} (header {payload.header}): reference count is already 0"
  | .escaped fault => fault.message

end Abort

end CountedHeap
