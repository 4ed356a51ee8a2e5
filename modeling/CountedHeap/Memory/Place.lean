import Std.Data.TreeMap

/-!
Places: addresses inside the segments of a heap. A place names its segment and the byte offset from
the segment's base, so two segments never overlap. Bases are aligned to a page, hence a place is
aligned to a word exactly when its offset is. Offsets are negative below the base.
-/

namespace CountedHeap

structure Place where
  segment : Nat
  offset : Int
  deriving DecidableEq, Repr

namespace Place

instance : HAdd Place Nat Place where
  hAdd p n := ⟨p.segment, p.offset + n⟩

@[simp] theorem add_segment (p : Place) (n : Nat) : (p + n).segment = p.segment := rfl

@[simp] theorem add_offset (p : Place) (n : Nat) : (p + n).offset = p.offset + n := rfl

theorem add_add (p : Place) (m n : Nat) : p + m + n = p + (m + n) := by
  show (⟨p.segment, p.offset + m + n⟩ : Place) = ⟨p.segment, p.offset + (m + n : Nat)⟩
  rw [Int.natCast_add, Int.add_assoc]

/-- Places are ordered by segment, then by offset. -/
instance : Ord Place where
  compare := compareLex (compareOn segment) (compareOn offset)

instance : Std.TransOrd Place :=
  inferInstanceAs (Std.TransCmp (compareLex (compareOn segment) (compareOn offset)))

instance : Std.LawfulEqOrd Place where
  eq_of_compare {p q} h := by
    have h' : compareLex (compareOn segment) (compareOn offset) p q = .eq := h
    simp only [compareLex_eq_eq, compareOn, Std.compare_eq_iff_eq] at h'
    cases p
    cases q
    simp_all

/-- The place lies on a word boundary. -/
def isAligned (p : Place) : Bool :=
  p.offset % 8 == 0

/-- The first byte of the word that a place lies in. -/
def wordBase (p : Place) : Place :=
  ⟨p.segment, p.offset / 8 * 8⟩

/-- Which byte of its word a place is. -/
def byteIndex (p : Place) : Fin 8 :=
  ⟨(p.offset % 8).toNat, by omega⟩

/-- The header of a block lies right below its payload. -/
def payload (header : Place) : Place :=
  header + 24

/-- The header of the block with this payload. -/
def header (payload : Place) : Place :=
  ⟨payload.segment, payload.offset - 24⟩

@[simp] theorem header_payload (p : Place) : p.payload.header = p := by
  show (⟨p.segment, p.offset + 24 - 24⟩ : Place) = p
  rw [Int.add_sub_cancel]

@[simp] theorem payload_header (p : Place) : p.header.payload = p := by
  show (⟨p.segment, p.offset - 24 + 24⟩ : Place) = p
  rw [Int.sub_add_cancel]

/-- Segment and offset, as in `0+24`. -/
protected def toString (p : Place) : String :=
  s!"{p.segment}+{p.offset}"

instance : ToString Place := ⟨Place.toString⟩

end Place

end CountedHeap
