import CountedHeap.Failure

namespace CountedHeap

inductive Event where
  | pagesMapped (base : Place) (len : UInt64)
  | pagesRefused (len : UInt64)
  | segmentAdded (base : Place) (len segments : UInt64)
  | blockSplit (header : Place) (kept : UInt64) (remainder : Place) (size : UInt64)
  | doubleRelease (payload : Place)
  | allocationFailed (cause : Refusal)
  deriving DecidableEq, Repr

inductive Level where
  | trace
  | debug
  | error
  deriving DecidableEq, Repr

def Level.name : Level → String
  | .trace => "TRACE"
  | .debug => "DEBUG"
  | .error => "ERROR"

namespace Event

def level : Event → Level
  | .pagesMapped .. => .trace
  | .pagesRefused .. => .debug
  | .segmentAdded .. => .trace
  | .blockSplit .. => .trace
  | .doubleRelease .. => .error
  | .allocationFailed .. => .debug

def message : Event → String
  | .pagesMapped base len => s!"mapped {len} bytes at {base}"
  | .pagesRefused len => s!"page mapping of {len} bytes failed"
  | .segmentAdded base len segments =>
    s!"new segment {base} of {len} bytes, {segments} segments mapped"
  | .blockSplit header kept remainder size =>
    s!"split block {header}: kept {kept} bytes, remainder {remainder} of {size} bytes"
  | .doubleRelease payload => Abort.message (.doubleRelease payload)
  | .allocationFailed cause => s!"allocation failed: {cause.message}"

end Event

end CountedHeap
