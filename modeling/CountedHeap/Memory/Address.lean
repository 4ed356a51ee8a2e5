import CountedHeap.Memory.Place

/-!
Addresses and their numbers. An address is a place of the heap, or lies at a function descriptor
outside it. Addresses are known by what they were made from and not by their numbers: a number
that happens to be equal to that of an address is none, and two addresses may have the same
number. The number only gives an address its bytes in memory. It is aligned as the address is, and
all numbers lie so close together that their high bytes are the same. Main statement: moving an
address adds to its number.
-/

namespace CountedHeap

/-- What is known of a function: how many arguments its closures may capture. -/
structure FunctionDescriptor where
  arity : UInt32
  deriving DecidableEq, Repr

inductive Address where
  | place (p : Place)
  /-- A number of bytes after a function descriptor. -/
  | code (f : FunctionDescriptor) (offset : Int)
  deriving DecidableEq, Repr

namespace Address

/-- The base of the first segment. -/
def firstBase : Int := 0x7f5a5a5a5000

/-- From the base of one segment to the base of the next. -/
def stride : Int := 4096

/-- Where function descriptors lie. -/
def descriptors : Int := 0x7f5a1c006730

/-- Where the address lies, counted without bound. -/
def position : Address → Int
  | .place p => firstBase + stride * p.segment + p.offset
  | .code _ offset => descriptors + offset

/-- The address as a word of 64 bits. -/
def number (a : Address) : UInt64 :=
  UInt64.ofInt a.position

/-- The bytes of an address, by index from the low end, that a program cannot know. It knows the
low one, because bases are aligned to a page, and the high ones, which are the same for all
addresses. Descriptors lie in the first `2 ^ 16` bytes of an area aligned to `2 ^ 24`, so it
knows their byte 2. -/
def hidden : Address → List (Fin 8)
  | .place _ => [1, 2, 3, 4]
  | .code _ _ => [1, 3, 4]

/-- The address moved by a number of bytes. -/
def displace : Address → Int → Address
  | .place p, d => .place ⟨p.segment, p.offset + d⟩
  | .code f offset, d => .code f (offset + d)

@[simp] theorem displace_zero (a : Address) : a.displace 0 = a := by
  cases a <;> simp [displace]

theorem position_displace (a : Address) (d : Int) : (a.displace d).position = a.position + d := by
  cases a <;> simp only [displace, position] <;> omega

theorem toNat_number (a : Address) : a.number.toNat = (a.position % UInt64.size).toNat := by
  have hsize : (UInt64.size : Int) = 2 ^ 64 := rfl
  show (UInt64.ofNat (a.position % 2 ^ 64).toNat).toNat = _
  rw [UInt64.toNat_ofNat', hsize]
  omega

/-- Sums of words are sums of integers, modulo `2 ^ 64`. -/
theorem ofInt_add_ofInt (x y : Int) :
    UInt64.ofInt x + UInt64.ofInt y = UInt64.ofInt (x + y) := by
  apply UInt64.toNat.inj
  rw [UInt64.toNat_add]
  show ((UInt64.ofNat (x % 2 ^ 64).toNat).toNat +
    (UInt64.ofNat (y % 2 ^ 64).toNat).toNat) % 2 ^ 64 =
    (UInt64.ofNat ((x + y) % 2 ^ 64).toNat).toNat
  simp only [UInt64.toNat_ofNat']
  omega

/-- A move adds to the number. -/
theorem number_displace (a : Address) (d : Int) :
    (a.displace d).number = a.number + UInt64.ofInt d := by
  rw [number, number, position_displace, ofInt_add_ofInt]

end Address

end CountedHeap
