import CountedHeap.Block.Split
import Mathlib

namespace CountedHeap

theorem bind_eq_ok_iff {ε α β : Type} {x : Except ε α} {f : α → Except ε β} {b : β} :
    (x >>= f) = .ok b ↔ ∃ a, x = .ok a ∧ f a = .ok b := by
  cases x with
  | error e => simp [bind, Except.bind]
  | ok a => simp [bind, Except.bind]

namespace Size

/-- The bytes of the words that `n` bytes take. -/
def padded (n : Nat) : Nat :=
  (n + 7) / 8 * 8

theorem le_padded (n : Nat) : n ≤ padded n := by
  unfold padded
  omega

theorem exists_toNat_eq {n : Nat} (h : n < 2 ^ 64) : ∃ v : UInt64, v.toNat = n :=
  ⟨UInt64.ofNat n, UInt64.toNat_ofNat_of_lt' h⟩

theorem add_eq_error_iff {a b : UInt64} {fault : Fault} :
    add a b = .error fault ↔ fault = .addOverflow ∧ 2 ^ 64 ≤ a.toNat + b.toNat := by
  have hnone : add? a b = none ↔ 2 ^ 64 ≤ a.toNat + b.toNat := add?_eq_none_iff
  rw [← hnone, add]
  cases add? a b with
  | none => simp [eq_comm]
  | some sum => simp

theorem toNat_max (a b : UInt64) : (max a b).toNat = max a.toNat b.toNat := by
  show (if a ≤ b then b else a).toNat = _
  split
  · rename_i h
    exact (Nat.max_eq_right (UInt64.le_iff_toNat_le.1 h)).symm
  · rename_i h
    exact (Nat.max_eq_left (Nat.le_of_not_le fun hle => h (UInt64.le_iff_toNat_le.2 hle))).symm

theorem toNat_pred {a : UInt64} {k : Nat} (ha : a.toNat = 2 ^ k) : (a - 1).toNat = 2 ^ k - 1 := by
  have hone : (1 : UInt64) ≤ a := by
    rw [UInt64.le_iff_toNat_le, ha]
    exact Nat.one_le_two_pow
  rw [UInt64.toNat_sub_of_le _ _ hone, ha]
  rfl

theorem toNat_and_not_mask {x a : UInt64} {k : Nat} (ha : a.toNat = 2 ^ k) :
    (x &&& ~~~(a - 1)).toNat = x.toNat / 2 ^ k * 2 ^ k := by
  have hmask := toNat_pred ha
  have hnot : (~~~(a - 1)).toNat = 2 ^ 64 - ((2 ^ k - 1) + 1) := by
    rw [UInt64.toNat_not, hmask, UInt64.size]
    omega
  have hlt : 2 ^ k - 1 < 2 ^ 64 := hmask ▸ (a - 1).toNat_lt
  apply Nat.eq_of_testBit_eq
  intro i
  rw [UInt64.toNat_and, Nat.testBit_and, hnot, Nat.testBit_two_pow_sub_succ hlt,
    Nat.testBit_two_pow_sub_one, Nat.testBit_mul_two_pow, Nat.testBit_div_two_pow]
  rcases Nat.lt_or_ge i k with hik | hik
  · simp [hik, Nat.not_le.2 hik]
  · rcases Nat.lt_or_ge i 64 with hi | hi
    · simp [hi, Nat.not_lt.2 hik, hik]
    · have htop : x.toNat.testBit i = false :=
        Nat.testBit_lt_two_pow (Nat.lt_of_lt_of_le x.toNat_lt (Nat.pow_le_pow_right (by decide) hi))
      simp [hik, htop]

/-- A sum that does not fit still does not fit once it is rounded down. -/
theorem rounded_lt_iff {n k : Nat} (hk : k ≤ 64) : n / 2 ^ k * 2 ^ k < 2 ^ 64 ↔ n < 2 ^ 64 := by
  have hpow : 2 ^ 64 = 2 ^ (64 - k) * 2 ^ k := by rw [← Nat.pow_add, Nat.sub_add_cancel hk]
  rw [hpow, Nat.mul_lt_mul_right (Nat.two_pow_pos k), Nat.div_lt_iff_lt_mul (Nat.two_pow_pos k)]

theorem exponent_lt {a : UInt64} {k : Nat} (ha : a.toNat = 2 ^ k) : k < 64 :=
  (Nat.pow_lt_pow_iff_right (by decide)).1 (ha ▸ a.toNat_lt)

theorem roundUp?_eq_some_iff {v a c : UInt64} {k : Nat} (ha : a.toNat = 2 ^ k) :
    roundUp? v a = some c ↔ c.toNat = (v.toNat + (2 ^ k - 1)) / 2 ^ k * 2 ^ k := by
  have hmask (x : UInt64) : (x &&& ~~~(a - 1)).toNat = x.toNat / 2 ^ k * 2 ^ k :=
    toNat_and_not_mask ha
  simp only [roundUp?, Option.map_eq_some_iff, add?_eq_some_iff, toNat_pred ha]
  constructor
  · rintro ⟨sum, hsum, rfl⟩
    rw [hmask, hsum]
  · intro hc
    have hfits := (rounded_lt_iff (exponent_lt ha).le).1 (hc ▸ c.toNat_lt)
    obtain ⟨sum, hsum⟩ := exists_toNat_eq hfits
    refine ⟨sum, hsum.symm, ?_⟩
    apply UInt64.toNat.inj
    rw [hmask, hsum, hc]

theorem alignWord?_eq_some_iff {v c : UInt64} :
    alignWord? v = some c ↔ c.toNat = padded v.toNat :=
  roundUp?_eq_some_iff (k := 3) rfl

theorem nextMultiple?_eq_some_iff {v c : UInt64} :
    nextMultiple? v wordSize = some c ↔ c.toNat = padded v.toNat := by
  have hword : wordSize.toNat = 8 := rfl
  have hmod : (v % wordSize).toNat = v.toNat % 8 := by rw [UInt64.toNat_mod, hword]
  have hzero : v % wordSize = 0 ↔ v.toNat % 8 = 0 := by
    rw [← UInt64.toNat_inj, hmod]
    rfl
  have hgap : (wordSize - v % wordSize).toNat = 8 - v.toNat % 8 := by
    rw [UInt64.toNat_sub_of_le _ _ (UInt64.le_iff_toNat_le.2 (by omega)), hmod, hword]
  unfold nextMultiple? padded
  split
  · rename_i h
    have h8 : v.toNat % 8 = 0 := hzero.1 h
    simp only [Option.some.injEq, ← UInt64.toNat_inj]
    omega
  · rename_i h
    have h8 : v.toNat % 8 ≠ 0 := fun h8 => h (hzero.2 h8)
    rw [add?_eq_some_iff, hgap]
    omega

end Size

open Size

/-- A block of `available` bytes is cut for a request of `size` bytes. -/
def WorthCutting (size available : UInt64) : Prop :=
  2 * size.toNat + 24 ≤ available.toNat ∧ padded size.toNat + 32 ≤ available.toNat

theorem splitThreshold_eq_some_iff {size t : UInt64} :
    splitThreshold size = some t ↔
      t.toNat = max (2 * size.toNat + 24) (padded size.toNat + 32) := by
  have hlimit := t.toNat_lt
  have htwo : (2 : UInt64).toNat = 2 := rfl
  have hheader : headerSize.toNat = 24 := rfl
  have hroom : (headerSize + wordSize).toNat = 32 := rfl
  simp only [splitThreshold, Option.bind_eq_bind, Option.bind_eq_some_iff, mul?_eq_some_iff,
    add?_eq_some_iff, alignWord?_eq_some_iff, htwo, hheader, hroom, Option.pure_def,
    Option.some.injEq]
  constructor
  · rintro ⟨product, hproduct, doubled, hdoubled, aligned, haligned, sum, hsum, rfl⟩
    rw [toNat_max]
    omega
  · intro ht
    -- both sums are at most their maximum, which fits
    obtain ⟨product, hproduct⟩ := exists_toNat_eq (n := size.toNat * 2) (by omega)
    obtain ⟨doubled, hdoubled⟩ := exists_toNat_eq (n := size.toNat * 2 + 24) (by omega)
    obtain ⟨aligned, haligned⟩ := exists_toNat_eq (n := padded size.toNat) (by omega)
    obtain ⟨sum, hsum⟩ := exists_toNat_eq (n := padded size.toNat + 32) (by omega)
    refine ⟨product, hproduct.symm, doubled, by omega, aligned, haligned, sum, by omega, ?_⟩
    apply UInt64.toNat.inj
    rw [toNat_max]
    omega

theorem splitThreshold_any_iff {size available : UInt64} :
    (splitThreshold size).any (· ≤ available) = true ↔ WorthCutting size available := by
  have hlimit := available.toNat_lt
  simp only [Option.any_eq_true, decide_eq_true_eq, splitThreshold_eq_some_iff, WorthCutting,
    UInt64.le_iff_toNat_le, ← Nat.max_le]
  constructor
  · rintro ⟨t, ht, hle⟩
    rwa [← ht]
  · intro hmax
    obtain ⟨t, ht⟩ := exists_toNat_eq (hmax.trans_lt hlimit)
    exact ⟨t, ht, by rwa [ht]⟩

theorem plan_eq {h : Place} {available size used : UInt64}
    (hused : nextMultiple? size wordSize = some used) :
    Cut.plan h available size = (do
      let front ← add used headerSize
      let needed ← add front wordSize
      if available < needed then .error .blockTooSmallToSplit
      else
        let behind ← subtract available used
        let rest ← subtract behind headerSize
        .ok ⟨h.payload + used.toNat, rest⟩) := by
  unfold Cut.plan
  rw [hused]
  rfl

theorem plan_of_unrounded {h : Place} {available size : UInt64}
    (hused : nextMultiple? size wordSize = none) :
    Cut.plan h available size = .error .addOverflow := by
  unfold Cut.plan
  rw [hused]
  rfl

theorem plan_eq_ok_iff {h : Place} {available size : UInt64} {cut : Cut} :
    Cut.plan h available size = .ok cut ↔
      padded size.toNat + 24 + cut.size.toNat = available.toNat ∧ 8 ≤ cut.size.toNat ∧
        cut.remainder = h.payload + padded size.toNat := by
  have hheader : headerSize.toNat = 24 := rfl
  have hword : wordSize.toNat = 8 := rfl
  have hlimit := available.toNat_lt
  constructor
  · intro hplan
    cases hused : nextMultiple? size wordSize with
    | none =>
        rw [plan_of_unrounded hused] at hplan
        cases hplan
    | some used =>
        have hpadded := nextMultiple?_eq_some_iff.1 hused
        simp only [plan_eq hused, bind_eq_ok_iff, add_eq_ok_iff] at hplan
        obtain ⟨front, hfront, needed, hneeded, hplan⟩ := hplan
        split at hplan
        · cases hplan
        · rename_i hroom
          simp only [bind_eq_ok_iff, subtract_eq_ok_iff] at hplan
          obtain ⟨behind, hbehind, rest, hrest, hcut⟩ := hplan
          have hneeded_le := Nat.le_of_not_lt fun hlt => hroom (UInt64.lt_iff_toNat_lt.2 hlt)
          cases hcut
          rw [← hpadded]
          show used.toNat + 24 + rest.toNat = available.toNat ∧ 8 ≤ rest.toNat ∧ _
          exact ⟨by omega, by omega, rfl⟩
  · rintro ⟨hsum, hrest, hremainder⟩
    obtain ⟨used, hused⟩ := exists_toNat_eq (n := padded size.toNat) (by omega)
    obtain ⟨front, hfront⟩ := exists_toNat_eq (n := padded size.toNat + 24) (by omega)
    obtain ⟨needed, hneeded⟩ := exists_toNat_eq (n := padded size.toNat + 32) (by omega)
    obtain ⟨behind, hbehind⟩ :=
      exists_toNat_eq (n := available.toNat - padded size.toNat) (by omega)
    simp only [plan_eq (nextMultiple?_eq_some_iff.2 hused), bind_eq_ok_iff, add_eq_ok_iff]
    refine ⟨front, by omega, needed, by omega, ?_⟩
    have hroom : ¬ available < needed := by
      rw [UInt64.lt_iff_toNat_lt]
      omega
    simp only [if_neg hroom, bind_eq_ok_iff, subtract_eq_ok_iff]
    refine ⟨behind, by omega, cut.size, by omega, ?_⟩
    rw [hused, ← hremainder]

/-- Nothing but room is needed for a cut. -/
theorem exists_plan {h : Place} {available size : UInt64}
    (hroom : padded size.toNat + 32 ≤ available.toNat) :
    ∃ cut, Cut.plan h available size = .ok cut := by
  have hlimit := available.toNat_lt
  obtain ⟨rest, hrest⟩ := exists_toNat_eq (n := available.toNat - padded size.toNat - 24) (by omega)
  refine ⟨⟨h.payload + padded size.toNat, rest⟩, plan_eq_ok_iff.2 ⟨?_, ?_, rfl⟩⟩
  · show padded size.toNat + 24 + rest.toNat = available.toNat
    omega
  · show 8 ≤ rest.toNat
    omega

/-- The room that is needed is summed up before it is compared with what there is. -/
theorem plan_of_small {h : Place} {available size : UInt64}
    (hsmall : available.toNat < padded size.toNat + 32) :
    Cut.plan h available size =
      .error (if padded size.toNat + 32 < 2 ^ 64 then .blockTooSmallToSplit else .addOverflow) := by
  have hheader : headerSize.toNat = 24 := rfl
  have hword : wordSize.toNat = 8 := rfl
  split
  · rename_i hfits
    obtain ⟨used, hused⟩ := exists_toNat_eq (n := padded size.toNat) (by omega)
    obtain ⟨front, hfront⟩ := exists_toNat_eq (n := padded size.toNat + 24) (by omega)
    obtain ⟨needed, hneeded⟩ := exists_toNat_eq hfits
    have hlt : available < needed := UInt64.lt_iff_toNat_lt.2 (by omega)
    rw [plan_eq (nextMultiple?_eq_some_iff.2 hused), (add_eq_ok_iff (c := front)).2 (by omega)]
    show (add front wordSize >>= _) = _
    rw [(add_eq_ok_iff (c := needed)).2 (by omega)]
    exact if_pos hlt
  · rename_i hfull
    cases hused : nextMultiple? size wordSize with
    | none => exact plan_of_unrounded hused
    | some used =>
        have hpadded := nextMultiple?_eq_some_iff.1 hused
        rw [plan_eq hused]
        cases hfront : add used headerSize with
        | error fault =>
            obtain ⟨rfl, -⟩ := add_eq_error_iff.1 hfront
            rfl
        | ok front =>
            have hsum := add_eq_ok_iff.1 hfront
            have hneeded : add front wordSize = .error .addOverflow :=
              add_eq_error_iff.2 ⟨rfl, by omega⟩
            show (add front wordSize >>= _) = _
            rw [hneeded]
            rfl

end CountedHeap
