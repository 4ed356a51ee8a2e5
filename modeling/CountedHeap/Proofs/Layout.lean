import CountedHeap.Proofs.Frame
import CountedHeap.Proofs.Rounding

/-!
How the blocks of a heap lie in its segments. The layout is a walk over the headers: it names the
place where it starts and the place where the next block would lie. Walks can be put together and
taken apart at any block, so an edit of one block is an edit of one step. Main statements: blocks do
not overlap, headers lie on word boundaries, and a block may be cut in two.
-/

namespace CountedHeap

open Size

/-- The place lies in an earlier segment, or in the same one and not behind the other place. -/
def Place.Precedes (p q : Place) : Prop :=
  p.segment < q.segment ∨ p.segment = q.segment ∧ p.offset ≤ q.offset

namespace Place

theorem Precedes.refl (p : Place) : p.Precedes p :=
  .inr ⟨rfl, le_refl _⟩

theorem Precedes.trans {p q r : Place} (hpq : p.Precedes q) (hqr : q.Precedes r) :
    p.Precedes r := by
  unfold Precedes at *
  omega

theorem Precedes.disjoint_span {p q : Place} {n : Nat} (h : (p + n).Precedes q) (k : Nat) :
    Disjoint (p.span n) (q.span k) := by
  apply Place.disjoint_span
  unfold Precedes at h
  rw [add_segment, add_offset] at h
  omega

end Place

namespace Memory

/-- The bytes of a block, header and payload. -/
def extent (m : Memory) (h : Place) : Set Place :=
  h.span (24 + (m.size h).toNat)

/-- Blocks with these headers lie one after the other from a place on, each on the first word
boundary behind the block before it. The last block of a segment ends where the segment does. -/
inductive Laid (m : Memory) : Place → List Place → Place → Prop
  | nil (p : Place) : Laid m p [] p
  | inner {p q : Place} {hs : List Place} (hsize : 0 < (m.size p).toNat)
      (rest : Laid m (p + (24 + padded (m.size p).toNat)) hs q) : Laid m p (p :: hs) q
  | last {p q : Place} {hs : List Place} {len : UInt64} (hsize : 0 < (m.size p).toNat)
      (hregion : m.regions[p.segment]? = some len)
      (hend : p.offset + 24 + (m.size p).toNat = len.toNat)
      (rest : Laid m ⟨p.segment + 1, 0⟩ hs q) : Laid m p (p :: hs) q

namespace Laid

variable {m m' : Memory} {p q r : Place} {hs ks : List Place}

theorem append (hhs : Laid m p hs q) (hks : Laid m q ks r) : Laid m p (hs ++ ks) r := by
  induction hhs with
  | nil p => exact hks
  | inner hsize _ ih => exact .inner hsize (ih hks)
  | last hsize hregion hend _ ih => exact .last hsize hregion hend (ih hks)

theorem of_append (h : Laid m p (hs ++ ks) r) : ∃ q, Laid m p hs q ∧ Laid m q ks r := by
  induction hs generalizing p with
  | nil => exact ⟨p, .nil p, h⟩
  | cons a hs ih =>
      cases h with
      | inner hsize rest =>
          obtain ⟨q, hhs, hks⟩ := ih rest
          exact ⟨q, .inner hsize hhs, hks⟩
      | last hsize hregion hend rest =>
          obtain ⟨q, hhs, hks⟩ := ih rest
          exact ⟨q, .last hsize hregion hend hhs, hks⟩

theorem congr (h : Laid m p hs q) (hsizes : ∀ a ∈ hs, m'.size a = m.size a)
    (hregions : ∀ (k : Nat) (len : UInt64), m.regions[k]? = some len → m'.regions[k]? = some len) :
    Laid m' p hs q := by
  induction h with
  | nil p => exact .nil p
  | @inner p q hs hsize _ ih =>
      have hp := hsizes p (by simp)
      refine .inner (hp ▸ hsize) ?_
      rw [hp]
      exact ih fun a ha => hsizes a (by simp [ha])
  | @last p q hs len hsize hregion hend _ ih =>
      have hp := hsizes p (by simp)
      exact .last (hp ▸ hsize) (hregions _ _ hregion) (hp ▸ hend)
        (ih fun a ha => hsizes a (by simp [ha]))

theorem size_pos (h : Laid m p hs q) : ∀ a ∈ hs, 0 < (m.size a).toNat := by
  induction h with
  | nil => simp
  | inner hsize _ ih => simpa using ⟨hsize, ih⟩
  | last hsize _ _ _ ih => simpa using ⟨hsize, ih⟩

theorem aligned (h : Laid m p hs q) (hp : p.offset % 8 = 0) : ∀ a ∈ hs, a.offset % 8 = 0 := by
  induction h with
  | nil => simp
  | inner _ _ ih =>
      refine List.forall_mem_cons.2 ⟨hp, ih ?_⟩
      rw [Place.add_offset, padded]
      omega
  | last _ _ _ _ ih => exact List.forall_mem_cons.2 ⟨hp, ih rfl⟩

theorem isAligned {x : Place} (h : Laid m ⟨0, 0⟩ hs q) (hx : x.header ∈ hs) :
    x.isAligned = true := by
  have haligned := h.aligned rfl _ hx
  have hoffset : x.header.offset = x.offset - 24 := rfl
  rw [Place.isAligned, beq_iff_eq]
  omega

theorem precedes (h : Laid m p hs q) : ∀ a ∈ hs, p.Precedes a := by
  induction h with
  | nil => simp
  | inner _ _ ih =>
      refine List.forall_mem_cons.2 ⟨.refl _, fun a ha => .trans ?_ (ih a ha)⟩
      exact .inr ⟨rfl, by rw [Place.add_offset]; omega⟩
  | last _ _ _ _ ih =>
      refine List.forall_mem_cons.2 ⟨.refl _, fun a ha => .trans ?_ (ih a ha)⟩
      exact .inl (Nat.lt_succ_self _)

theorem pairwise_precedes (h : Laid m p hs q) :
    hs.Pairwise fun a b => (a + (24 + (m.size a).toNat)).Precedes b := by
  induction h with
  | nil => exact .nil
  | inner _ rest ih =>
      refine .cons (fun b hb => .trans ?_ (rest.precedes b hb)) ih
      exact .inr ⟨rfl, by simp only [Place.add_offset, padded]; omega⟩
  | last _ _ _ rest ih =>
      refine .cons (fun b hb => .trans ?_ (rest.precedes b hb)) ih
      exact .inl (Nat.lt_succ_self _)

theorem nodup (h : Laid m p hs q) : hs.Nodup := by
  refine h.pairwise_precedes.imp ?_
  rintro a b hab rfl
  simp only [Place.Precedes, Place.add_segment, Place.add_offset] at hab
  omega

theorem pairwise_disjoint (h : Laid m p hs q) :
    hs.Pairwise fun a b => Disjoint (m.extent a) (m.extent b) :=
  h.pairwise_precedes.imp fun hab => hab.disjoint_span _

theorem disjoint (h : Laid m p hs q) {a b : Place} (ha : a ∈ hs) (hb : b ∈ hs) (hne : a ≠ b) :
    Disjoint (m.extent a) (m.extent b) := by
  have hsymm : Std.Symm fun a b => Disjoint (m.extent a) (m.extent b) := ⟨fun _ _ hab => hab.symm⟩
  exact h.pairwise_disjoint.forall ha hb hne

theorem precedes_end (h : Laid m p hs q) :
    p.Precedes q ∧ ∀ a ∈ hs, (a + (24 + (m.size a).toNat)).Precedes q := by
  induction h with
  | nil p => exact ⟨.refl p, by simp⟩
  | inner _ _ ih =>
      obtain ⟨hrest, hall⟩ := ih
      refine ⟨.trans ?_ hrest, List.forall_mem_cons.2 ⟨.trans ?_ hrest, hall⟩⟩
      · exact .inr ⟨rfl, by rw [Place.add_offset]; omega⟩
      · exact .inr ⟨rfl, by simp only [Place.add_offset, padded]; omega⟩
  | last _ _ _ _ ih =>
      obtain ⟨hrest, hall⟩ := ih
      refine ⟨.trans ?_ hrest, List.forall_mem_cons.2 ⟨.trans ?_ hrest, hall⟩⟩
      · exact .inl (Nat.lt_succ_self _)
      · exact .inl (Nat.lt_succ_self _)

/-- A block that is cut in two fills the same room as before. -/
theorem split {h rem : Place} (hlaid : Laid m p (hs ++ h :: ks) q)
    (hused : 0 < (m'.size h).toNat) (hrem : rem = h.payload + padded (m'.size h).toNat)
    (hrest : padded (m'.size h).toNat + 24 + (m'.size rem).toNat = (m.size h).toNat)
    (hpos : 0 < (m'.size rem).toNat) (hsizes : ∀ a ∈ hs ++ ks, m'.size a = m.size a)
    (hregions : m'.regions = m.regions) : Laid m' p (hs ++ h :: rem :: ks) q := by
  obtain ⟨mid, hfront, hback⟩ := hlaid.of_append
  have hfront' : Laid m' p hs mid :=
    hfront.congr (fun a ha => hsizes a (by simp [ha])) fun k len => hregions ▸ id
  have hplace : h + (24 + padded (m'.size h).toNat) = rem := by
    rw [hrem, Place.payload, Place.add_add]
  have hsegment : rem.segment = h.segment := by rw [← hplace, Place.add_segment]
  have hoffset : rem.offset = h.offset + (24 + padded (m'.size h).toNat : Nat) := by
    rw [← hplace, Place.add_offset]
  refine hfront'.append ?_
  cases hback with
  | inner hsize htail =>
      have hnext :
          rem + (24 + padded (m'.size rem).toNat) = h + (24 + padded (m.size h).toNat) := by
        calc
          rem + (24 + padded (m'.size rem).toNat)
              = h + (24 + padded (m'.size h).toNat + (24 + padded (m'.size rem).toNat)) := by
            rw [← Place.add_add h, hplace]
          _ = h + (24 + padded (m.size h).toNat) := by
            rw [← hrest]
            unfold padded
            congr 1
            omega
      refine .inner hused ?_
      rw [hplace]
      refine .inner hpos ?_
      rw [hnext]
      exact htail.congr (fun a ha => hsizes a (by simp [ha])) fun k len => hregions ▸ id
  | last hsize hregion hend htail =>
      refine .inner hused ?_
      rw [hplace]
      refine .last hpos (hregions ▸ hsegment ▸ hregion) (by omega) ?_
      rw [hsegment]
      exact htail.congr (fun a ha => hsizes a (by simp [ha])) fun k len => hregions ▸ id

end Laid

end Memory

end CountedHeap
