/-!
Where a heap gets its pages: a source is asked for a length and grants it or refuses. A grant is
always for fresh pages, so a source only decides, and the heap names the new segment.
-/

namespace CountedHeap

/-- The answer of a source. What the operating system itself answers is logged. -/
structure Reply where
  granted : Bool
  fromSystem : Bool
  deriving DecidableEq, Repr

class PageSource (σ : Type) where
  ask : σ → UInt64 → Reply × σ

/-- The pages of the operating system. -/
structure SystemPages where
  deriving DecidableEq, Repr

namespace SystemPages

/-- Lengths from here on cannot be mapped. -/
def limit : UInt64 := 0x4000000000000000

def reply (len : UInt64) : Reply := ⟨len < limit, true⟩

/-- Lengths below this are surely mapped. -/
def safeLimit : UInt64 := 0x40000000

instance : PageSource SystemPages where
  ask source len := (reply len, source)

end SystemPages

/-- A source that keeps to a ration before it asks the system. -/
structure Ration where
  /-- The calls, counted from zero, that are refused. -/
  refused : List Nat
  maxLength : Option UInt64
  /-- How many maps are still allowed. -/
  budget : Option Nat
  /-- Grant every length, and ask the system only for those that it surely maps. -/
  unlimited : Bool
  /-- How often the source was asked. -/
  calls : Nat
  deriving DecidableEq, Repr

namespace Ration

/-- The ration itself forbids the next call. -/
def forbids (r : Ration) (len : UInt64) : Bool :=
  r.refused.contains r.calls || r.maxLength.any (· < len) || r.budget == some 0

/-- A map that the ration allows takes one off the budget, also when the system then refuses. -/
instance : PageSource Ration where
  ask r len :=
    let r' := { r with calls := r.calls + 1 }
    if r.forbids len then (⟨false, false⟩, r')
    else
      (if r.unlimited then ⟨true, len < SystemPages.safeLimit⟩ else SystemPages.reply len,
        { r' with budget := r.budget.map (· - 1) })

end Ration

/-- A source that remembers every length it was asked for. -/
structure Recorded (σ : Type) where
  source : σ
  requested : Array UInt64

namespace Recorded

instance {σ : Type} [PageSource σ] : PageSource (Recorded σ) where
  ask r len :=
    let (reply, source) := PageSource.ask r.source len
    (reply, ⟨source, r.requested.push len⟩)

end Recorded

end CountedHeap
