namespace CountedHeap

/-- Bytes of a machine word. -/
def wordSize : UInt64 := 8

/-- Bytes of a block header: a link, a size and a count, one word each. -/
def headerSize : UInt64 := 24

/-- Bytes of a page of the operating system. -/
def pageSize : UInt64 := 4096

namespace Size

/-- The sum, when it is below `2 ^ 64`. -/
def add? (a b : UInt64) : Option UInt64 :=
  if a.toNat + b.toNat < UInt64.size then some (a + b) else none

/-- The product, when it is below `2 ^ 64`. -/
def mul? (a b : UInt64) : Option UInt64 :=
  if a.toNat * b.toNat < UInt64.size then some (a * b) else none

/-- The difference, when it is not negative. -/
def sub? (a b : UInt64) : Option UInt64 :=
  if b ≤ a then some (a - b) else none

theorem add?_eq_some_iff {a b c : UInt64} :
    add? a b = some c ↔ a.toNat + b.toNat = c.toNat := by
  have hc := c.toNat_lt
  simp only [add?, UInt64.size, ← UInt64.toNat_inj, Option.ite_none_right_eq_some,
    Option.some.injEq, UInt64.toNat_add]
  omega

theorem add?_eq_none_iff {a b : UInt64} :
    add? a b = none ↔ UInt64.size ≤ a.toNat + b.toNat := by
  simp [add?]

theorem mul?_eq_some_iff {a b c : UInt64} :
    mul? a b = some c ↔ a.toNat * b.toNat = c.toNat := by
  have hc := c.toNat_lt
  simp only [mul?, UInt64.size, ← UInt64.toNat_inj, Option.ite_none_right_eq_some,
    Option.some.injEq, UInt64.toNat_mul]
  constructor
  · rintro ⟨hfits, hproduct⟩
    rw [← hproduct]
    exact (Nat.mod_eq_of_lt hfits).symm
  · intro h
    rw [h]
    exact ⟨hc, Nat.mod_eq_of_lt hc⟩

theorem sub?_eq_some_iff {a b c : UInt64} :
    sub? a b = some c ↔ b.toNat + c.toNat = a.toNat := by
  have ha := a.toNat_lt
  simp only [sub?, UInt64.le_iff_toNat_le, ← UInt64.toNat_inj, Option.ite_none_right_eq_some,
    Option.some.injEq]
  constructor
  · rintro ⟨h, hc⟩
    rw [UInt64.toNat_sub_of_le _ _ (UInt64.le_iff_toNat_le.2 h)] at hc
    omega
  · intro h
    refine ⟨by omega, ?_⟩
    rw [UInt64.toNat_sub_of_le _ _ (UInt64.le_iff_toNat_le.2 (by omega))]
    omega

end Size

end CountedHeap
