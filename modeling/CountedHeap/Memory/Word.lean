import CountedHeap.Memory.Address

/-!
Machine words as a program sees them, and the memory cells that a word occupies. A word is a number
or an address. It occupies eight bytes, the low one first. The cells of an address say which part of
which address they hold; looked at one by one they hold the bytes of its number. Bytes that a
program writes itself never make an address, since it cannot know the hidden bytes of one. The other
bytes it may know, so eight cells hold an address as soon as the hidden ones are parts of addresses,
be it of different ones. Main statements: eight cells in a row spell the word that was written to
them, and their bytes are those of its number.
-/

namespace CountedHeap

inductive Word where
  | number (n : UInt64)
  | address (a : Address)
  deriving DecidableEq, Repr

/-- One byte of memory. -/
inductive Cell where
  | byte (value : UInt8)
  | part (a : Address) (index : Fin 8)
  deriving DecidableEq, Repr

/-- The bit that marks a word as an immediate value. -/
def tagBit : UInt64 := 1

/-- A number with its tag bit set is an immediate value and no reference. -/
def isTaggedNumber (n : UInt64) : Bool :=
  n &&& tagBit != 0

namespace Word

/-- The null reference. -/
def null : Word := .number 0

def ofPlace (p : Place) : Word := .address (.place p)

/-- The address of a function descriptor. -/
def function (f : FunctionDescriptor) : Word := .address (.code f 0)

/-- The word of a link. -/
def ofLink : Option Place → Word
  | none => .null
  | some p => .ofPlace p

/-- The place that a link word names. -/
def link : Word → Option Place
  | .address (.place p) => some p
  | _ => none

/-- The word as a number. -/
def toNumber : Word → UInt64
  | .number n => n
  | .address a => a.number

/-- Bases and descriptors lie on even addresses. -/
def isTagged : Word → Bool
  | .number n => isTaggedNumber n
  | .address (.place p) => p.offset % 2 == 1
  | .address (.code _ offset) => offset % 2 == 1

/-- The word with `d` added to it; an address stays one. -/
def displace (w : Word) (d : Int) : Word :=
  match w with
  | .number n => .number (n + UInt64.ofInt d)
  | .address a => .address (a.displace d)

/-- The word's address moved up by `n` bytes, which are counted modulo `2 ^ 64`: a count just below
it moves back. Null stays null. -/
def advance (w : Word) (n : Nat) : Word :=
  if w = .null then .null else w.displace ((n : Int).bmod UInt64.size)

end Word

/-- What byte `i` of a number counts, the low one first. -/
def byteWeight : Nat → Nat
  | 0 => 1
  | i + 1 => 256 * byteWeight i

/-- Byte `i` of a number, the low one first. -/
def byteOf (n : UInt64) (i : Nat) : UInt8 :=
  UInt8.ofNat (n.toNat / byteWeight i)

/-- The index of a byte in its word. -/
def octetIndex (i : Nat) : Fin 8 :=
  ⟨i % 8, Nat.mod_lt i (by decide)⟩

@[simp] theorem val_octetIndex (i : Nat) : (octetIndex i).val = i % 8 := rfl

@[simp] theorem octetIndex_val (i : Fin 8) : octetIndex i = i :=
  Fin.ext (Nat.mod_eq_of_lt i.isLt)

/-- The cell that holds byte `i` of the word. -/
def Word.cell : Word → Nat → Cell
  | .number n, i => .byte (byteOf n i)
  | .address a, i => .part a (octetIndex i)

namespace Cell

/-- The byte in the cell. -/
def value : Cell → UInt8
  | .byte v => v
  | .part a i => byteOf a.number i

/-- The cell with another byte in it. A part of an address becomes the same part of the address that
has this byte there. -/
def update (c : Cell) (v : UInt8) : Cell :=
  match c with
  | .byte _ => .byte v
  | .part a i => .part (a.displace ((v.toNat - (byteOf a.number i).toNat) * byteWeight i)) i

/-- The cell holds part `i` of an address. -/
def isPart (c : Cell) (i : Nat) : Bool :=
  match c with
  | .byte _ => false
  | .part _ j => j.val == i

end Cell

/-- The number that the `n` bytes of `f` from byte `i` on spell, the low byte first. -/
def littleEndian (f : Nat → UInt8) (i : Nat) : Nat → Nat
  | 0 => 0
  | n + 1 => (f i).toNat + 256 * littleEndian f (i + 1) n

/-- The number that eight cells spell. -/
def spelled (f : Nat → Cell) : UInt64 :=
  UInt64.ofNat (littleEndian (fun i => (f i).value) 0 8)

/-- The eight cells hold all parts of an address. -/
def holdAll (f : Nat → Cell) (a : Address) : Bool :=
  (List.finRange 8).all fun i => f i = .part a i

/-- The cells of the hidden bytes of an address hold parts of addresses. -/
def holdHidden (f : Nat → Cell) (a : Address) : Bool :=
  a.hidden.all fun i => (f i).isPart i

/-- The word in the eight cells of `f`. It is an address when they hold all its parts. Otherwise the
cell of byte 1, which is hidden in every address, says near which address the word may lie. It lies
there when all hidden cells hold parts of addresses, and the bytes say how far away. In all other
cases it is the number that the bytes spell. -/
def Word.ofCells (f : Nat → Cell) : Word :=
  match f 1 with
  | .part a _ =>
    if holdAll f a then .address a
    else if holdHidden f a then
      .address (a.displace (((spelled f).toNat - a.number.toNat : Int).bmod UInt64.size))
    else .number (spelled f)
  | _ => .number (spelled f)

theorem isTaggedNumber_eq (n : UInt64) : isTaggedNumber n = (n.toNat % 2 == 1) := by
  have h : (n &&& tagBit).toNat = n.toNat % 2 := by
    rw [UInt64.toNat_and]
    exact Nat.and_one_is_mod n.toNat
  rw [isTaggedNumber, Bool.eq_iff_iff]
  simp only [bne_iff_ne, ne_eq, ← UInt64.toNat_inj, h, UInt64.toNat_zero, beq_iff_eq]
  omega

namespace Word

/-- A word is tagged exactly when its number is. -/
theorem isTagged_eq (w : Word) : w.isTagged = isTaggedNumber w.toNumber := by
  have hsize : (UInt64.size : Int) = 2 ^ 64 := rfl
  rw [isTaggedNumber_eq]
  match w with
  | .number n => exact isTaggedNumber_eq n
  | .address (.place p) =>
      simp only [isTagged, toNumber, Address.toNat_number, Address.position, Address.firstBase,
        Address.stride, hsize]
      rw [Bool.eq_iff_iff, beq_iff_eq, beq_iff_eq]
      omega
  | .address (.code f offset) =>
      simp only [isTagged, toNumber, Address.toNat_number, Address.position,
        Address.descriptors, hsize]
      rw [Bool.eq_iff_iff, beq_iff_eq, beq_iff_eq]
      omega

/-- Adding to a word adds to its number. -/
@[simp] theorem toNumber_displace (w : Word) (d : Int) :
    (w.displace d).toNumber = w.toNumber + UInt64.ofInt d := by
  cases w with
  | number n => rfl
  | address a => exact a.number_displace d

@[simp] theorem link_ofLink (l : Option Place) : (ofLink l).link = l := by
  cases l <;> rfl

/-- The bytes of a word are those of its number. -/
theorem value_cell (w : Word) {i : Nat} (h : i < 8) : (w.cell i).value = byteOf w.toNumber i := by
  cases w with
  | number n => rfl
  | address a => simp only [cell, Cell.value, toNumber, val_octetIndex, Nat.mod_eq_of_lt h]

end Word

/-- Only eight bytes count. -/
theorem littleEndian_congr {f g : Nat → UInt8} (h : ∀ i, i < 8 → f i = g i) :
    littleEndian f 0 8 = littleEndian g 0 8 := by
  simp only [littleEndian, h 0, h 1, h 2, h 3, h 4, h 5, h 6, h 7, Nat.reduceLT, Nat.reduceAdd,
    Nat.zero_add]

/-- Only eight cells count. -/
theorem spelled_congr {f g : Nat → Cell} (h : ∀ i, i < 8 → (f i).value = (g i).value) :
    spelled f = spelled g := by
  rw [spelled, spelled, littleEndian_congr h]

theorem Word.ofCells_congr {f g : Nat → Cell} (h : ∀ i, i < 8 → f i = g i) :
    Word.ofCells f = Word.ofCells g := by
  have hall (a : Address) : holdAll f a = holdAll g a := by
    have hparts : (fun i : Fin 8 => decide (f i = .part a i)) = fun i : Fin 8 =>
        decide (g i = .part a i) := funext fun i => by rw [h i i.isLt]
    rw [holdAll, holdAll, hparts]
  have hhidden (a : Address) : holdHidden f a = holdHidden g a := by
    have hparts : (fun i : Fin 8 => (f i).isPart i) = fun i : Fin 8 => (g i).isPart i :=
      funext fun i => by rw [h i i.isLt]
    rw [holdHidden, holdHidden, hparts]
  have hspelled := spelled_congr fun i hi => congrArg Cell.value (h i hi)
  simp only [Word.ofCells, hspelled, h 1 (by decide), hall, hhidden]

theorem littleEndian_digits (n i k : Nat) :
    littleEndian (fun j => UInt8.ofNat (n / byteWeight j)) i k =
      n / byteWeight i % byteWeight k := by
  induction k generalizing i with
  | zero => simp [littleEndian, byteWeight, Nat.mod_one]
  | succ k ih =>
      simp only [littleEndian, ih, UInt8.toNat_ofNat', byteWeight]
      rw [Nat.mod_mul, Nat.div_div_eq_div_mul, Nat.mul_comm 256 (byteWeight i)]

/-- The bytes of a number spell it. -/
theorem littleEndian_byteOf (n : UInt64) : littleEndian (byteOf n) 0 8 = n.toNat := by
  have h := littleEndian_digits n.toNat 0 8
  have hlt : n.toNat < byteWeight 8 := n.toNat_lt
  rw [byteWeight, Nat.div_one, Nat.mod_eq_of_lt hlt] at h
  exact h

/-- Cells with the bytes of a number spell it. -/
theorem spelled_eq {f : Nat → Cell} {n : UInt64} (h : ∀ i, i < 8 → (f i).value = byteOf n i) :
    spelled f = n := by
  rw [spelled, littleEndian_congr h, littleEndian_byteOf, UInt64.ofNat_toNat]

@[simp] theorem Word.ofCells_cell (w : Word) : Word.ofCells w.cell = w := by
  cases w with
  | number n => exact congrArg Word.number (spelled_eq fun i hi => (Word.number n).value_cell hi)
  | address a =>
      have hall : holdAll (Word.address a).cell a = true := by
        simp [holdAll, Word.cell]
      show (if holdAll (Word.address a).cell a then _ else _) = _
      rw [if_pos hall]

/-- Eight cells spell the number of the word that they hold. -/
theorem Word.toNumber_ofCells (f : Nat → Cell) : (Word.ofCells f).toNumber = spelled f := by
  unfold Word.ofCells
  split
  · rename_i a _ _
    split
    · rename_i h
      have hparts : ∀ i : Fin 8, f i = .part a i := by simpa [holdAll] using h
      refine (spelled_eq fun i hi => ?_).symm
      rw [hparts ⟨i, hi⟩]
      rfl
    · split
      · show (a.displace _).number = spelled f
        rw [Address.number_displace]
        apply UInt64.toNat.inj
        have hlow := (spelled f).toNat_lt
        have hword := a.number.toNat_lt
        rw [UInt64.toNat_add]
        show (a.number.toNat + (UInt64.ofNat (_ % 2 ^ 64 : Int).toNat).toNat) % 2 ^ 64 = _
        rw [UInt64.toNat_ofNat']
        have hmod := Int.bmod_emod (x := ((spelled f).toNat - a.number.toNat : Int))
          (m := UInt64.size)
        have hsize : (UInt64.size : Int) = 2 ^ 64 := rfl
        rw [hsize] at hmod
        omega
      · rfl
  · rfl

/-- One digit of a number in base 256 is replaced by adding the difference in its place. -/
theorem replace_digit {n v k : Nat} (hn : n < UInt64.size) (hv : v < 256) (hk : k < 8) :
    (n + (((v : Int) - (n / byteWeight k % 256 : Nat)) * byteWeight k % UInt64.size).toNat %
      UInt64.size) % UInt64.size / byteWeight k % 256 = v := by
  have hsize : (UInt64.size : Int) = 2 ^ 64 := rfl
  rw [hsize]
  rcases (by omega : k = 0 ∨ k = 1 ∨ k = 2 ∨ k = 3 ∨ k = 4 ∨ k = 5 ∨ k = 6 ∨ k = 7) with
    rfl | rfl | rfl | rfl | rfl | rfl | rfl | rfl <;>
  · simp only [UInt64.size, byteWeight, Int.reducePow, Nat.reduceMul, Int.cast_ofNat_Int] at hn ⊢
    omega

/-- A cell holds the byte that it was given. -/
@[simp] theorem Cell.value_update (c : Cell) (v : UInt8) : (c.update v).value = v := by
  cases c with
  | byte u => rfl
  | part a i =>
      apply UInt8.toNat.inj
      simp only [update, value, byteOf, Address.number_displace, UInt8.toNat_ofNat',
        UInt64.toNat_add]
      show ((a.number.toNat + (UInt64.ofNat (_ % 2 ^ 64 : Int).toNat).toNat) % 2 ^ 64 /
        byteWeight i.val) % 2 ^ 8 = v.toNat
      rw [UInt64.toNat_ofNat']
      exact replace_digit a.number.toNat_lt v.toNat_lt i.isLt

end CountedHeap
