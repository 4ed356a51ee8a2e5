import CountedHeap.Memory.Word

namespace CountedHeap

structure Memory where
  /-- Lengths of the segments granted so far, in order. -/
  regions : Array UInt64
  /-- The cells of a word, by its first byte. -/
  octets : Std.TreeMap Place (Vector Cell 8)

namespace Memory

def empty : Memory := ⟨#[], ∅⟩

/-- The base of the next segment to be granted. -/
def nextBase (m : Memory) : Place := ⟨m.regions.size, 0⟩

/-- Takes a new segment of `len` bytes into the memory. -/
def grant (m : Memory) (len : UInt64) : Memory :=
  ⟨m.regions.push len, m.octets⟩

/-- The cells of the word that starts at `base`; one that was never written holds zero bytes. -/
def octet (m : Memory) (base : Place) : Vector Cell 8 :=
  m.octets.getD base (Vector.replicate 8 (.byte 0))

def cell (m : Memory) (p : Place) : Cell :=
  (m.octet p.wordBase).get p.byteIndex

def setCell (m : Memory) (p : Place) (c : Cell) : Memory :=
  let octet := (m.octet p.wordBase).set p.byteIndex.val c p.byteIndex.isLt
  ⟨m.regions, m.octets.insert p.wordBase octet⟩

/-- Writes the `n` cells of `f` from `p` on. -/
def store (m : Memory) (p : Place) (n : Nat) (f : Nat → Cell) : Memory :=
  n.fold (fun i _ m => m.setCell (p + i) (f i)) m

/-- The eight cells from a place on, which need not be aligned. -/
def cells (m : Memory) (p : Place) : Nat → Cell :=
  if p.isAligned then
    let octet := m.octet p
    fun i => octet.get (octetIndex i)
  else fun i => m.cell (p + i)

/-- Writes eight cells. -/
def setCells (m : Memory) (p : Place) (f : Nat → Cell) : Memory :=
  if p.isAligned then
    ⟨m.regions, m.octets.insert p #v[f 0, f 1, f 2, f 3, f 4, f 5, f 6, f 7]⟩
  else m.store p 8 f

def word (m : Memory) (p : Place) : Word :=
  Word.ofCells (m.cells p)

def setWord (m : Memory) (p : Place) (w : Word) : Memory :=
  m.setCells p w.cell

/-- Adds to the number of a word. The cells stay parts of addresses where they are. -/
def addToWord (m : Memory) (p : Place) (d : Int) : Memory :=
  let f := m.cells p
  let sum := (Word.ofCells f).toNumber + UInt64.ofInt d
  m.setCells p fun i => (f i).update (byteOf sum i)

/-- Copies `n` cells; the two ranges may overlap, since all cells are read before one is written. -/
def move (m : Memory) (source target : Place) (n : Nat) : Memory :=
  m.store target n fun i => m.cell (source + i)

/-- The bytes of the `n` cells from `p` on. -/
def bytes (m : Memory) (p : Place) (n : Nat) : List UInt8 :=
  (List.range n).map fun i => (m.cell (p + i)).value

/-- The place lies in a segment. -/
def contains (m : Memory) (p : Place) : Bool :=
  0 ≤ p.offset && p.offset < (m.regions[p.segment]?.getD 0).toNat

/-- A word as it is shown: an address that is neither in a segment nor a
descriptor's is a number. -/
def shown (m : Memory) : Word → Word
  | .number n => .number n
  | .address (.place p) => if m.contains p then .ofPlace p else .number (Address.place p).number
  | .address (.code f offset) =>
    if offset = 0 then .function f else .number (Address.code f offset).number

/-- The `n` words from `p` on, as they are shown. -/
def words (m : Memory) (p : Place) (n : Nat) : List Word :=
  (List.range n).map fun i => m.shown (m.word (p + 8 * i))

@[simp] theorem cell_empty (p : Place) : empty.cell p = .byte 0 := by
  simp [cell, octet, empty, Vector.get]

@[simp] theorem cell_grant (m : Memory) (len : UInt64) (p : Place) :
    (m.grant len).cell p = m.cell p := rfl

@[simp] theorem cell_setCell (m : Memory) (p q : Place) (c : Cell) :
    (m.setCell p c).cell q = if p = q then c else m.cell q := by
  simp only [cell, setCell, octet, Std.TreeMap.getD_insert, Std.compare_eq_iff_eq]
  by_cases hbase : p.wordBase = q.wordBase
  · rw [if_pos hbase, hbase]
    by_cases h : p = q
    · subst h
      simp only [if_true, Vector.get, Fin.val_cast, Vector.getElem_toArray]
      exact Vector.getElem_set_self _
    · have hindex : p.byteIndex.val ≠ q.byteIndex.val := by
        intro hindex
        apply h
        cases p
        cases q
        simp only [Place.wordBase, Place.byteIndex, Place.mk.injEq] at hbase hindex
        simp only [Place.mk.injEq]
        omega
      rw [if_neg h]
      simp only [Vector.get, Fin.val_cast, Vector.getElem_toArray]
      exact Vector.getElem_set_ne _ _ hindex
  · have h : p ≠ q := fun h => hbase (congrArg Place.wordBase h)
    rw [if_neg hbase, if_neg h]

theorem cell_store (m : Memory) (p q : Place) (n : Nat) (f : Nat → Cell) :
    (m.store p n f).cell q =
      if q.segment = p.segment ∧ p.offset ≤ q.offset ∧ q.offset < p.offset + n then
        f (q.offset - p.offset).toNat
      else m.cell q := by
  induction n with
  | zero =>
      rw [if_neg (by omega)]
      rfl
  | succ n ih =>
      have hstep : m.store p (n + 1) f = (m.store p n f).setCell (p + n) (f n) := by
        simp [store, Nat.fold_succ]
      rw [hstep, cell_setCell, ih]
      by_cases h : p + n = q
      · subst h
        have hindex : ((p + n).offset - p.offset).toNat = n := by
          rw [Place.add_offset]
          omega
        rw [if_pos rfl,
          if_pos ⟨rfl, by rw [Place.add_offset]; omega, by rw [Place.add_offset]; omega⟩, hindex]
      · rw [if_neg h]
        have hq : ¬ (q.segment = p.segment ∧ q.offset = p.offset + n) := by
          rintro ⟨hs, ho⟩
          apply h
          cases q
          simp only at hs ho
          subst hs ho
          rfl
        by_cases hin : q.segment = p.segment ∧ p.offset ≤ q.offset ∧ q.offset < p.offset + n
        · rw [if_pos hin, if_pos ⟨hin.1, hin.2.1, by omega⟩]
        · rw [if_neg hin, if_neg (fun hs => hin ⟨hs.1, hs.2.1, by
            have := fun ho => hq ⟨hs.1, ho⟩
            omega⟩)]

theorem cells_eq (m : Memory) (p : Place) {i : Nat} (hi : i < 8) :
    m.cells p i = m.cell (p + i) := by
  by_cases h : p.isAligned
  · have hp : p.offset % 8 = 0 := by simpa [Place.isAligned] using h
    have hbase : (p + i).wordBase = p := by
      cases p
      simp only [Place.wordBase, Place.add_segment, Place.add_offset, Place.mk.injEq,
        true_and] at hp ⊢
      omega
    have hindex : (p + i).byteIndex = octetIndex i := by
      apply Fin.ext
      simp only [Place.byteIndex, Place.add_offset, octetIndex]
      omega
    rw [cells, if_pos h, cell, hbase, hindex]
  · rw [cells, if_neg h]

/-- A word is what the eight cells from its place on hold, aligned or not. -/
theorem word_eq (m : Memory) (p : Place) : m.word p = Word.ofCells fun i => m.cell (p + i) :=
  Word.ofCells_congr fun _ hi => m.cells_eq p hi

theorem cell_setCells (m : Memory) (p q : Place) (f : Nat → Cell) :
    (m.setCells p f).cell q =
      if q.segment = p.segment ∧ p.offset ≤ q.offset ∧ q.offset < p.offset + 8 then
        f (q.offset - p.offset).toNat
      else m.cell q := by
  by_cases h : p.isAligned
  · have hp : p.offset % 8 = 0 := by simpa [Place.isAligned] using h
    rw [setCells, if_pos h]
    simp only [cell, octet, Std.TreeMap.getD_insert, Std.compare_eq_iff_eq]
    by_cases hbase : p = q.wordBase
    · have hq : q.segment = p.segment ∧ p.offset ≤ q.offset ∧ q.offset < p.offset + 8 := by
        rw [hbase]
        simp only [Place.wordBase, true_and]
        omega
      rw [if_pos hbase, if_pos hq]
      have hindex : (q.offset - p.offset).toNat = q.byteIndex.val := by
        rw [hbase]
        simp only [Place.wordBase, Place.byteIndex]
        omega
      rw [hindex]
      obtain ⟨i, hi⟩ := q.byteIndex
      rcases (by omega : i = 0 ∨ i = 1 ∨ i = 2 ∨ i = 3 ∨ i = 4 ∨ i = 5 ∨ i = 6 ∨ i = 7) with
        rfl | rfl | rfl | rfl | rfl | rfl | rfl | rfl <;> rfl
    · have hq : ¬ (q.segment = p.segment ∧ p.offset ≤ q.offset ∧ q.offset < p.offset + 8) := by
        rintro ⟨hs, hlow, hhigh⟩
        apply hbase
        cases p
        simp only [Place.wordBase, Place.mk.injEq] at hs hlow hhigh hp ⊢
        omega
      rw [if_neg hbase, if_neg hq]
  · rw [setCells, if_neg h, cell_store]
    rfl

/-- Eight cells that were written hold what their word is. -/
theorem word_setCells_same (m : Memory) (p : Place) (f : Nat → Cell) :
    (m.setCells p f).word p = Word.ofCells f := by
  rw [word_eq]
  apply Word.ofCells_congr
  intro i hi
  have hindex : ((p + i).offset - p.offset).toNat = i := by
    rw [Place.add_offset]
    omega
  rw [cell_setCells, if_pos ⟨rfl, by rw [Place.add_offset]; omega, by rw [Place.add_offset]; omega⟩,
    hindex]

@[simp] theorem word_setWord_same (m : Memory) (p : Place) (w : Word) :
    (m.setWord p w).word p = w := by
  rw [setWord, word_setCells_same, Word.ofCells_cell]

/-- Adding to a word is addition modulo `2 ^ 64`. -/
@[simp] theorem toNumber_word_addToWord (m : Memory) (p : Place) (d : Int) :
    ((m.addToWord p d).word p).toNumber = (m.word p).toNumber + UInt64.ofInt d := by
  rw [addToWord, word_setCells_same, Word.toNumber_ofCells]
  exact spelled_eq fun i _ => Cell.value_update _ _

end Memory

end CountedHeap
