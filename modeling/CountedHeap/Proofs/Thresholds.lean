import CountedHeap.Proofs.Taking

namespace CountedHeap

open Size

/-- The multiples of `a` that are not below `v`. -/
def multiplesFrom (a v : Nat) : Set Nat :=
  {n | a ∣ n ∧ v ≤ n}

theorem isLeast_multiplesFrom {a : Nat} (ha : 0 < a) (v : Nat) :
    IsLeast (multiplesFrom a v) ((v + (a - 1)) / a * a) := by
  refine ⟨⟨Nat.dvd_mul_left a _, ?_⟩, ?_⟩
  · have hrest : v + (a - 1) < (v + (a - 1)) / a * a + a := Nat.lt_div_mul_add ha
    omega
  · rintro n ⟨⟨q, rfl⟩, hle⟩
    have hquotient : (v + (a - 1)) / a < q + 1 := by
      rw [Nat.div_lt_iff_lt_mul ha, Nat.add_mul, Nat.one_mul, Nat.mul_comm q]
      omega
    rw [Nat.mul_comm a]
    exact Nat.mul_le_mul_right a (Nat.le_of_lt_succ hquotient)

theorem isLeast_multiplesFrom_iff {a v n : Nat} (ha : 0 < a) :
    IsLeast (multiplesFrom a v) n ↔ n = (v + (a - 1)) / a * a := by
  constructor
  · intro h
    exact h.unique (isLeast_multiplesFrom ha v)
  · rintro rfl
    exact isLeast_multiplesFrom ha v

namespace Size

variable {v a m : UInt64} {k : Nat}

theorem isPowerOfTwo_iff : isPowerOfTwo a = true ↔ a.toNat.isPowerOfTwo := by
  by_cases hzero : a = 0
  · subst hzero
    refine iff_of_false (by decide) ?_
    rintro ⟨k, hk⟩
    exact (Nat.two_pow_pos k).ne hk
  · have hne : a.toNat ≠ 0 := fun h => hzero (UInt64.toNat.inj h)
    have hpred : (a - 1).toNat = a.toNat - 1 :=
      UInt64.toNat_sub_of_le _ _ (UInt64.le_iff_toNat_le.2 (Nat.one_le_iff_ne_zero.2 hne))
    rw [← Nat.and_sub_one_eq_zero_iff_isPowerOfTwo hne, ← hpred, ← UInt64.toNat_and]
    simp [isPowerOfTwo, hzero, ← UInt64.toNat_inj]

theorem roundUp?_eq_some_iff_isLeast (ha : a.toNat = 2 ^ k) :
    roundUp? v a = some m ↔ IsLeast (multiplesFrom a.toNat v.toNat) m.toNat := by
  rw [roundUp?_eq_some_iff ha, ha, isLeast_multiplesFrom_iff (Nat.two_pow_pos k)]

/-- The sum that is masked overflows only where the multiple does. -/
theorem roundUp?_eq_none_iff_isLeast (ha : a.toNat = 2 ^ k) :
    roundUp? v a = none ↔ IsLeast (multiplesFrom a.toNat v.toNat) (2 ^ 64) := by
  have hk := exponent_lt ha
  have hleast := isLeast_multiplesFrom (Nat.two_pow_pos k) v.toNat
  have hle : (v.toNat + (2 ^ k - 1)) / 2 ^ k * 2 ^ k ≤ 2 ^ 64 :=
    hleast.2 ⟨Nat.pow_dvd_pow 2 hk.le, v.toNat_lt.le⟩
  have hsum : roundUp? v a = none ↔ 2 ^ 64 ≤ v.toNat + (2 ^ k - 1) := by
    rw [roundUp?, Option.map_eq_none_iff, add?_eq_none_iff, toNat_pred ha]
    rfl
  have hrounded := rounded_lt_iff (n := v.toNat + (2 ^ k - 1)) hk.le
  rw [hsum, ha, isLeast_multiplesFrom_iff (Nat.two_pow_pos k)]
  omega

theorem align_eq_ok_iff (ha : a.toNat = 2 ^ k) {r : Option UInt64} :
    align v a = .ok r ↔ roundUp? v a = r := by
  rw [align, if_pos (isPowerOfTwo_iff.2 ⟨k, ha⟩), Except.ok.injEq]

/-- Rounding up to a power of two gives the least multiple that is not below the value, and nothing
exactly when that multiple is `2 ^ 64`. A multiple stays as it is, and where a value is rounded up
so is every value below it, to no more. -/
theorem align_gives_least_multiple {a : UInt64} (ha : a.toNat.isPowerOfTwo) (v : UInt64) :
    (∀ m : UInt64, align v a = .ok (some m) ↔ IsLeast (multiplesFrom a.toNat v.toNat) m.toNat) ∧
      (align v a = .ok none ↔ IsLeast (multiplesFrom a.toNat v.toNat) (2 ^ 64)) ∧
      (∀ m : UInt64, align v a = .ok (some m) → align m a = .ok (some m)) ∧
      ∀ w n : UInt64, v ≤ w → align w a = .ok (some n) → ∃ m, align v a = .ok (some m) ∧ m ≤ n := by
  obtain ⟨k, hk⟩ := ha
  have hleast (v m : UInt64) :
      align v a = .ok (some m) ↔ IsLeast (multiplesFrom a.toNat v.toNat) m.toNat :=
    (align_eq_ok_iff hk).trans (roundUp?_eq_some_iff_isLeast hk)
  refine ⟨hleast v, (align_eq_ok_iff hk).trans (roundUp?_eq_none_iff_isLeast hk), ?_, ?_⟩
  · intro m hm
    obtain ⟨⟨hdvd, -⟩, -⟩ := (hleast v m).1 hm
    exact (hleast m m).2 ⟨⟨hdvd, Nat.le_refl _⟩, fun n hn => hn.2⟩
  · intro w n hvw hn
    obtain ⟨⟨hdvd, hwn⟩, -⟩ := (hleast w n).1 hn
    have hvn : v.toNat ≤ n.toNat := (UInt64.le_iff_toNat_le.1 hvw).trans hwn
    have hv := isLeast_multiplesFrom (hk ▸ Nat.two_pow_pos k : 0 < a.toNat) v.toNat
    have hle := hv.2 ⟨hdvd, hvn⟩
    obtain ⟨m, hm⟩ := exists_toNat_eq (hle.trans_lt n.toNat_lt)
    exact ⟨m, (hleast v m).2 (hm ▸ hv), UInt64.le_iff_toNat_le.2 (hm ▸ hle)⟩

/-- Above `2 ^ 63` its next multiple is `2 ^ 64`, which is no size. -/
theorem align_upper_half :
    Nat.isPowerOfTwo (2 ^ 63) ∧ align 0x8000000000000001 0x8000000000000000 = .ok none ∧
      IsLeast (multiplesFrom (2 ^ 63) (2 ^ 63 + 1)) (2 ^ 64) ∧
      ∃ m, align 1 0x8000000000000000 = .ok (some m) ∧ m ≤ 0x8000000000000000 := by
  have hpower : (0x8000000000000000 : UInt64).toNat.isPowerOfTwo := ⟨63, rfl⟩
  have hnone : align 0x8000000000000001 0x8000000000000000 = .ok none := rfl
  exact ⟨hpower, hnone, (align_gives_least_multiple hpower 0x8000000000000001).2.1.1 hnone,
    (align_gives_least_multiple hpower 1).2.2.2 0x8000000000000000 _ (by decide) rfl⟩

end Size

theorem splitThreshold_eq_none_iff {size : UInt64} :
    splitThreshold size = none ↔ 2 ^ 64 ≤ max (2 * size.toNat + 24) (padded size.toNat + 32) := by
  constructor
  · intro hnone
    apply Nat.le_of_not_lt
    intro hfits
    obtain ⟨t, ht⟩ := exists_toNat_eq hfits
    rw [splitThreshold_eq_some_iff.2 ht] at hnone
    cases hnone
  · intro hfull
    rw [Option.eq_none_iff_forall_ne_some]
    intro t hsome
    have ht := splitThreshold_eq_some_iff.1 hsome
    exact absurd t.toNat_lt (Nat.not_lt_of_le (ht ▸ hfull))

/-- The block at `h` is split for `size` bytes at a cut without a fault: both ways of rounding
put the remainder behind `used` bytes, and it has at least a word and at least the requested
bytes less seven. -/
structure SafeSplit (m : Memory) (h : Place) (size used : UInt64) (cut : Cut) : Prop where
  aligned : alignWord? size = some used
  rounded : nextMultiple? size wordSize = some used
  planned : Cut.plan h (m.size h) size = .ok cut
  place : cut.remainder = h.payload + used.toNat
  room : used.toNat + 24 + cut.size.toNat = (m.size h).toNat
  kept : (m.split h size cut).header h = ⟨some cut.remainder, size, m.refcount h⟩
  rest : (m.split h size cut).header cut.remainder = ⟨m.next h, cut.size, 0⟩
  word_le : 8 ≤ cut.size.toNat
  size_le : size.toNat ≤ cut.size.toNat + 7

theorem WorthCutting.safeSplit {m : Memory} {h : Place} {size : UInt64}
    (hlarge : WorthCutting size (m.size h)) : ∃ used cut, SafeSplit m h size used cut := by
  obtain ⟨hdoubled, haligned⟩ := hlarge
  have hlimit := (m.size h).toNat_lt
  obtain ⟨used, hused⟩ := exists_toNat_eq (n := padded size.toNat) (by omega)
  obtain ⟨cut, hcut⟩ := exists_plan (h := h) haligned
  obtain ⟨hroom, hword, hplace⟩ := plan_eq_ok_iff.1 hcut
  have hapart := plan_disjoint hcut
  have hpadded : padded size.toNat ≤ size.toNat + 7 := Nat.div_mul_le_self _ 8
  refine ⟨used, cut, ?_⟩
  exact
    { aligned := alignWord?_eq_some_iff.2 hused
      rounded := nextMultiple?_eq_some_iff.2 hused
      planned := hcut
      place := by rw [hused, hplace]
      room := by rw [hused, hroom]
      kept := Memory.header_split_kept hapart
      rest := Memory.header_split_remainder hapart
      word_le := hword
      size_le := by omega }

/-- The threshold of a split is the larger of two sums, and there is none exactly when that does not
fit. Every block that reaches it is split safely. -/
theorem split_safe_from_threshold (size : UInt64) :
    (∀ t : UInt64, splitThreshold size = some t ↔
        t.toNat = max (2 * size.toNat + 24) (padded size.toNat + 32)) ∧
      (splitThreshold size = none ↔ 2 ^ 64 ≤ max (2 * size.toNat + 24) (padded size.toNat + 32)) ∧
      ∀ (m : Memory) (h : Place) (t : UInt64), splitThreshold size = some t → t ≤ m.size h →
        ∃ used cut, SafeSplit m h size used cut := by
  refine ⟨fun t => splitThreshold_eq_some_iff, splitThreshold_eq_none_iff, ?_⟩
  intro m h t ht hreached
  apply WorthCutting.safeSplit
  rw [← splitThreshold_any_iff, ht]
  simpa using hreached

/-- A free block of the size from which on it is cut for 25 bytes. The remainder gets 18. -/
def thresholdMemory : Memory :=
  Memory.empty.setHeader ⟨0, 0⟩ ⟨none, 74, 0⟩

theorem thresholdMemory_split :
    splitThreshold 25 = some 74 ∧ (74 : UInt64) ≤ thresholdMemory.size ⟨0, 0⟩ ∧
      ∃ used cut, SafeSplit thresholdMemory ⟨0, 0⟩ 25 used cut := by
  have hthreshold : splitThreshold 25 = some 74 := by decide
  have hheader : thresholdMemory.header ⟨0, 0⟩ = ⟨none, 74, 0⟩ := Memory.header_setHeader _ _ _
  have hsize : thresholdMemory.size ⟨0, 0⟩ = 74 := congrArg Header.size hheader
  have hreached : (74 : UInt64) ≤ thresholdMemory.size ⟨0, 0⟩ := hsize ▸ UInt64.le_refl _
  exact ⟨hthreshold, hreached, (split_safe_from_threshold 25).2.2 _ _ _ hthreshold hreached⟩

end CountedHeap
