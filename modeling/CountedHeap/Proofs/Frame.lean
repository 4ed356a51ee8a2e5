import CountedHeap.Block.Split
import Mathlib

namespace CountedHeap

/-- The `n` bytes from a place on. -/
def Place.span (p : Place) (n : Nat) : Set Place :=
  {q | q.segment = p.segment ∧ p.offset ≤ q.offset ∧ q.offset < p.offset + n}

namespace Place

theorem disjoint_span {p q : Place} {n k : Nat}
    (h : p.segment = q.segment → p.offset + n ≤ q.offset ∨ q.offset + k ≤ p.offset) :
    Disjoint (p.span n) (q.span k) := by
  rw [Set.disjoint_left]
  rintro x ⟨hp, hlow, hhigh⟩ ⟨hq, hlow', hhigh'⟩
  have := h (hp.symm.trans hq)
  omega

theorem span_mono {p : Place} {n k : Nat} (h : n ≤ k) : p.span n ⊆ p.span k := by
  rintro x ⟨hs, hlow, hhigh⟩
  exact ⟨hs, hlow, by omega⟩

theorem span_add_subset {p : Place} {i n k : Nat} (h : i + n ≤ k) : (p + i).span n ⊆ p.span k := by
  rintro x ⟨hs, hlow, hhigh⟩
  rw [add_segment] at hs
  rw [add_offset] at hlow hhigh
  exact ⟨hs, by omega, by omega⟩

theorem disjoint_span_add {p : Place} {i j n k : Nat} (h : i + n ≤ j ∨ j + k ≤ i) :
    Disjoint ((p + i).span n) ((p + j).span k) := by
  apply disjoint_span
  intro _
  rw [add_offset, add_offset]
  omega

theorem disjoint_span_self {p : Place} {i n k : Nat} (h : n ≤ i) :
    Disjoint (p.span n) ((p + i).span k) := by
  apply disjoint_span
  intro _
  rw [add_offset]
  omega

theorem add_mem_span {p : Place} {i n : Nat} (h : i < n) : p + i ∈ p.span n :=
  ⟨rfl, by rw [add_offset]; omega, by rw [add_offset]; omega⟩

theorem header_inj {p q : Place} : p.header = q.header ↔ p = q := by
  constructor
  · intro h
    rw [← p.payload_header, h, payload_header]
  · exact congrArg header

theorem payload_inj {p q : Place} : p.payload = q.payload ↔ p = q := by
  constructor
  · intro h
    rw [← p.header_payload, h, header_payload]
  · exact congrArg payload

end Place

namespace Memory

variable {m m' : Memory} {p : Place}

theorem eqOn_of_disjoint {s t : Set Place} (h : Set.EqOn m'.cell m.cell sᶜ) (hst : Disjoint t s) :
    Set.EqOn m'.cell m.cell t :=
  h.mono (Set.disjoint_left.1 hst)

theorem word_congr (h : Set.EqOn m'.cell m.cell (p.span 8)) : m'.word p = m.word p := by
  rw [word_eq, word_eq]
  exact Word.ofCells_congr fun i hi => h (Place.add_mem_span hi)

theorem next_congr (h : Set.EqOn m'.cell m.cell (p.span 8)) : m'.next p = m.next p :=
  congrArg Word.link (word_congr h)

theorem size_congr (h : Set.EqOn m'.cell m.cell ((p + 8).span 8)) : m'.size p = m.size p :=
  congrArg Word.toNumber (word_congr h)

theorem refcount_congr (h : Set.EqOn m'.cell m.cell ((p + 16).span 8)) :
    m'.refcount p = m.refcount p :=
  congrArg Word.toNumber (word_congr h)

theorem header_congr (h : Set.EqOn m'.cell m.cell (p.span 24)) : m'.header p = m.header p := by
  have hnext := next_congr (h.mono (Place.span_mono (by omega)))
  have hsize := size_congr (h.mono (Place.span_add_subset (by omega)))
  have hcount := refcount_congr (h.mono (Place.span_add_subset (by omega)))
  simp only [header, hnext, hsize, hcount]

section Writes

variable (m : Memory) (p : Place)

theorem eqOn_setCells (f : Nat → Cell) : Set.EqOn (m.setCells p f).cell m.cell (p.span 8)ᶜ := by
  intro q hq
  rw [cell_setCells, if_neg]
  exact hq

theorem eqOn_setWord (w : Word) : Set.EqOn (m.setWord p w).cell m.cell (p.span 8)ᶜ :=
  m.eqOn_setCells p w.cell

theorem eqOn_setNext (next : Option Place) : Set.EqOn (m.setNext p next).cell m.cell (p.span 8)ᶜ :=
  m.eqOn_setWord p _

theorem eqOn_setSize (size : UInt64) :
    Set.EqOn (m.setSize p size).cell m.cell ((p + 8).span 8)ᶜ :=
  m.eqOn_setWord (p + 8) _

theorem eqOn_setRefcount (count : UInt64) :
    Set.EqOn (m.setRefcount p count).cell m.cell ((p + 16).span 8)ᶜ :=
  m.eqOn_setWord (p + 16) _

theorem eqOn_addRefcount (d : Int) :
    Set.EqOn (m.addRefcount p d).cell m.cell ((p + 16).span 8)ᶜ :=
  m.eqOn_setCells (p + 16) _

theorem eqOn_store (n : Nat) (f : Nat → Cell) :
    Set.EqOn (m.store p n f).cell m.cell (p.span n)ᶜ := by
  intro q hq
  rw [cell_store, if_neg]
  exact hq

@[simp] theorem regions_store (n : Nat) (f : Nat → Cell) : (m.store p n f).regions = m.regions := by
  induction n with
  | zero => rfl
  | succ n ih =>
      rw [← ih]
      simp [store, Nat.fold_succ, setCell]

@[simp] theorem regions_setCells (f : Nat → Cell) : (m.setCells p f).regions = m.regions := by
  unfold setCells
  split
  · rfl
  · exact m.regions_store p 8 f

@[simp] theorem regions_setWord (w : Word) : (m.setWord p w).regions = m.regions :=
  m.regions_setCells p _

@[simp] theorem regions_setNext (next : Option Place) : (m.setNext p next).regions = m.regions :=
  m.regions_setCells p _

@[simp] theorem regions_setRefcount (count : UInt64) :
    (m.setRefcount p count).regions = m.regions :=
  m.regions_setCells (p + 16) _

@[simp] theorem regions_addRefcount (d : Int) : (m.addRefcount p d).regions = m.regions :=
  m.regions_setCells (p + 16) _

theorem header_setNext (next : Option Place) :
    (m.setNext p next).header p = ⟨next, m.size p, m.refcount p⟩ := by
  have hwrite := m.eqOn_setNext p next
  have hnext : (m.setNext p next).next p = next := by
    rw [Memory.next, setNext, word_setWord_same, Word.link_ofLink]
  have hsize := size_congr (eqOn_of_disjoint hwrite (Place.disjoint_span_self (by omega)).symm)
  have hcount := refcount_congr (eqOn_of_disjoint hwrite (Place.disjoint_span_self (by omega)).symm)
  rw [header, hnext, hsize, hcount]

theorem header_setSize (size : UInt64) :
    (m.setSize p size).header p = ⟨m.next p, size, m.refcount p⟩ := by
  have hwrite := m.eqOn_setSize p size
  have hnext := next_congr (eqOn_of_disjoint hwrite (Place.disjoint_span_self (by omega)))
  have hsize : (m.setSize p size).size p = size := by
    rw [Memory.size, setSize, word_setWord_same, Word.toNumber]
  have hcount := refcount_congr (eqOn_of_disjoint hwrite (Place.disjoint_span_add (by omega)))
  rw [header, hnext, hsize, hcount]

theorem header_setRefcount (count : UInt64) :
    (m.setRefcount p count).header p = ⟨m.next p, m.size p, count⟩ := by
  have hwrite := m.eqOn_setRefcount p count
  have hnext := next_congr (eqOn_of_disjoint hwrite (Place.disjoint_span_self (by omega)))
  have hsize := size_congr (eqOn_of_disjoint hwrite (Place.disjoint_span_add (by omega)))
  have hcount : (m.setRefcount p count).refcount p = count := by
    rw [Memory.refcount, setRefcount, word_setWord_same, Word.toNumber]
  rw [header, hnext, hsize, hcount]

theorem header_addRefcount (d : Int) :
    (m.addRefcount p d).header p = ⟨m.next p, m.size p, m.refcount p + UInt64.ofInt d⟩ := by
  have hwrite := m.eqOn_addRefcount p d
  have hnext := next_congr (eqOn_of_disjoint hwrite (Place.disjoint_span_self (by omega)))
  have hsize := size_congr (eqOn_of_disjoint hwrite (Place.disjoint_span_add (by omega)))
  rw [header, hnext, hsize, refcount_addRefcount]

theorem toNat_refcount_addRefcount {d : Int} {n : Nat} (hn : (m.refcount p).toNat + d = n)
    (hlt : n < 2 ^ 64) : ((m.addRefcount p d).refcount p).toNat = n := by
  rw [refcount_addRefcount, UInt64.toNat_add]
  show ((m.refcount p).toNat + (UInt64.ofNat (d % 2 ^ 64).toNat).toNat) % 2 ^ 64 = n
  rw [UInt64.toNat_ofNat']
  omega

theorem eqOn_setHeader (header : Header) :
    Set.EqOn (m.setHeader p header).cell m.cell (p.span 24)ᶜ := by
  intro q hq
  have hnext : q ∉ p.span 8 := fun h => hq (Place.span_mono (by omega) h)
  have hsize : q ∉ (p + 8).span 8 := fun h => hq (Place.span_add_subset (by omega) h)
  have hcount : q ∉ (p + 16).span 8 := fun h => hq (Place.span_add_subset (by omega) h)
  rw [setHeader, eqOn_setRefcount _ _ _ hcount, eqOn_setSize _ _ _ hsize, eqOn_setNext _ _ _ hnext]

@[simp] theorem header_setHeader (header : Header) : (m.setHeader p header).header p = header := by
  have hlink : (m.setNext p header.next).next p = header.next :=
    congrArg Header.next (m.header_setNext p header.next)
  have hwords := (m.setNext p header.next).header_setSize p header.size
  have hnext : ((m.setNext p header.next).setSize p header.size).next p = header.next :=
    (congrArg Header.next hwords).trans hlink
  have hsize : ((m.setNext p header.next).setSize p header.size).size p = header.size :=
    congrArg Header.size hwords
  rw [setHeader, header_setRefcount, hnext, hsize]

@[simp] theorem regions_setHeader (header : Header) :
    (m.setHeader p header).regions = m.regions := by
  simp [setHeader, setSize]

end Writes

section Split

variable {h : Place} {size : UInt64} {cut : Cut}

theorem eqOn_split :
    Set.EqOn (m.split h size cut).cell m.cell (h.span 24 ∪ cut.remainder.span 24)ᶜ := by
  intro q hq
  have hrest : q ∉ cut.remainder.span 24 := fun hmem => hq (.inr hmem)
  have hnext : q ∉ h.span 8 := fun hmem => hq (.inl (Place.span_mono (by omega) hmem))
  have hsize : q ∉ (h + 8).span 8 := fun hmem => hq (.inl (Place.span_add_subset (by omega) hmem))
  rw [split, eqOn_setSize _ _ _ hsize, eqOn_setNext _ _ _ hnext, eqOn_setHeader _ _ _ hrest]

@[simp] theorem regions_split : (m.split h size cut).regions = m.regions := by
  simp [split, setSize]

theorem header_split_kept (hcut : Disjoint (h.span 24) (cut.remainder.span 24)) :
    (m.split h size cut).header h = ⟨some cut.remainder, size, m.refcount h⟩ := by
  have hold := header_congr (eqOn_of_disjoint
    (m.eqOn_setHeader cut.remainder ⟨m.next h, cut.size, 0⟩) hcut)
  have hlink := (m.setHeader cut.remainder ⟨m.next h, cut.size, 0⟩).header_setNext h
    (some cut.remainder)
  have hcount : (m.setHeader cut.remainder ⟨m.next h, cut.size, 0⟩).refcount h = m.refcount h :=
    congrArg Header.refcount hold
  rw [split, header_setSize]
  simp only [header, hcount, Header.mk.injEq] at hlink
  rw [hlink.1, hlink.2.2]

theorem header_split_remainder (hcut : Disjoint (h.span 24) (cut.remainder.span 24)) :
    (m.split h size cut).header cut.remainder = ⟨m.next h, cut.size, 0⟩ := by
  have hsize := eqOn_of_disjoint (((m.setHeader cut.remainder ⟨m.next h, cut.size, 0⟩).setNext h
    (some cut.remainder)).eqOn_setSize h size)
    (hcut.symm.mono_right (Place.span_add_subset (by omega)))
  have hlink := eqOn_of_disjoint ((m.setHeader cut.remainder ⟨m.next h, cut.size, 0⟩).eqOn_setNext h
    (some cut.remainder)) (hcut.symm.mono_right (Place.span_mono (by omega)))
  rw [split, header_congr hsize, header_congr hlink, header_setHeader]

end Split

end Memory

end CountedHeap
