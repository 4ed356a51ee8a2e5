import CountedHeap.Failure
import CountedHeap.Size.Checked

namespace CountedHeap.Size

def isPowerOfTwo (a : UInt64) : Bool :=
  a != 0 && a &&& (a - 1) == 0

/-- The least multiple of the power of two `a` that is not below `v`, when it fits. -/
def roundUp? (v a : UInt64) : Option UInt64 :=
  (add? v (a - 1)).map (· &&& ~~~(a - 1))

/-- Rounds up to an alignment, which has to be a power of two. -/
def align (v a : UInt64) : Except Fault (Option UInt64) :=
  if isPowerOfTwo a then .ok (roundUp? v a) else .error .alignmentNotPowerOfTwo

/-- Rounds up to whole words. -/
def alignWord? (v : UInt64) : Option UInt64 :=
  roundUp? v wordSize

/-- The least multiple of `a` that is not below `v`, when it fits. -/
def nextMultiple? (v a : UInt64) : Option UInt64 :=
  if v % a = 0 then some v else add? v (a - v % a)

/-- A sum that has to fit. -/
def add (a b : UInt64) : Except Fault UInt64 :=
  match add? a b with
  | some c => .ok c
  | none => .error .addOverflow

/-- A difference that must not be negative. -/
def subtract (a b : UInt64) : Except Fault UInt64 :=
  match sub? a b with
  | some c => .ok c
  | none => .error .subtractOverflow

theorem add_eq_ok_iff {a b c : UInt64} : add a b = .ok c ↔ a.toNat + b.toNat = c.toNat := by
  rw [← add?_eq_some_iff, add]
  split <;> simp_all

theorem subtract_eq_ok_iff {a b c : UInt64} :
    subtract a b = .ok c ↔ b.toNat + c.toNat = a.toNat := by
  rw [← sub?_eq_some_iff, subtract]
  split <;> simp_all

end CountedHeap.Size
