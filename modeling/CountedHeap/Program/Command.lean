import CountedHeap.Event
import CountedHeap.Heap.Report

namespace CountedHeap.Program

inductive Pointer where
  | null
  | raw (value : UInt64)
  /-- A number of bytes after the block of a handle. -/
  | handle (index offset : Nat)
  deriving DecidableEq, Repr

inductive CopySource where
  | bytes (values : Array UInt8)
  | pointer (p : Pointer)
  deriving DecidableEq, Repr

inductive Command where
  | acquire (size : UInt64) (times : Nat)
  | duplicate (source : CopySource) (initialized total : UInt64)
  | retain (p : Pointer) (times : Nat)
  | release (p : Pointer) (times : Nat)
  | isUnique (p : Pointer)
  | releaseClosure (p : Pointer) (times : Nat)
  | refcount (p : Pointer)
  | usableSize (p : Pointer)
  /-- A new closure of `words` words, or of as many as it needs. -/
  | closure (f : FunctionDescriptor) (slots : List Pointer) (words : Option Nat)
  /-- A closure around a closure, `depth` times. -/
  | nest (p : Pointer) (f : FunctionDescriptor) (depth : Nat)
  | read (p : Pointer) (offset length : Nat)
  | write (p : Pointer) (offset : Nat) (bytes : Array UInt8)
  | fill (p : Pointer) (offset : Nat) (byte : UInt8) (length : Nat)
  | words (p : Pointer) (offset count : Nat)
  | blocks
  | stats
  | describe (layout : Text.Layout)
  | config
  deriving DecidableEq, Repr

/-- The totals of a heap: all of them, or only the number of blocks and of free ones. -/
inductive Summary where
  | full (stats : Stats)
  | brief (blocks freeBlocks : Nat)
  deriving DecidableEq, Repr

inductive Answer where
  | nothing
  | pointer (w : Word)
  | truth (value : Bool)
  | number (value : UInt64)
  | bytes (values : List UInt8)
  | words (values : List Word)
  | blocks (values : List BlockInfo)
  | summary (value : Summary)
  | text (value : String)
  deriving DecidableEq, Repr

/-- Why a command has no answer. -/
inductive Trouble where
  | nullPointer
  | outOfRange
  | failed (failure : Failure)
  deriving DecidableEq, Repr

/-- No command can follow. -/
def Trouble.isFinal : Trouble → Bool
  | .failed (.refused _) => false
  | .failed _ => true
  | _ => false

/-- What is seen of one command: its result, the totals after it and its log. -/
structure Step where
  result : Except Trouble Answer
  summary : Except Fault Summary
  log : Array Event

end CountedHeap.Program
