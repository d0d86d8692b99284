import Benzene.Data.Rounding

namespace Benzene.Data

-- A decimal number `mantissa * 10 ^ exponent`, in its one normal form.
structure Decimal where
  mantissa : Int
  exponent : Int
  normal : mantissa % 10 ≠ 0 ∨ mantissa = 0 ∧ exponent = 0
deriving DecidableEq

namespace Decimal

-- Moves the factors of ten of `n` into the exponent.
def stripZeros : Nat → Nat → Int → Nat × Int
  | 0, n, e => (n, e)
  | fuel + 1, n, e => if n % 10 = 0 then stripZeros fuel (n / 10) (e + 1) else (n, e)

theorem stripZeros_mod (fuel n : Nat) (e : Int) (hpos : 0 < n) (hfuel : n ≤ fuel) :
    (stripZeros fuel n e).1 % 10 ≠ 0 := by
  induction fuel generalizing n e with
  | zero => omega
  | succ fuel ih =>
      simp only [stripZeros]
      split
      · exact ih _ _ (by omega) (by omega)
      · assumption

-- The decimal `mantissa * 10 ^ exponent`.
def ofParts (mantissa exponent : Int) : Decimal :=
  if h : mantissa = 0 then ⟨0, 0, Or.inr ⟨rfl, rfl⟩⟩
  else
    let parts := stripZeros mantissa.natAbs mantissa.natAbs exponent
    ⟨mantissa.sign * parts.1, parts.2, Or.inl (by
      have hmod : parts.1 % 10 ≠ 0 :=
        stripZeros_mod mantissa.natAbs mantissa.natAbs exponent (by omega) le_rfl
      rcases Int.lt_or_gt_of_ne h with hneg | hpos
      · rw [Int.sign_eq_neg_one_of_neg hneg]
        omega
      · rw [Int.sign_eq_one_of_pos hpos]
        omega)⟩

-- The decimal `mantissa * 2 ^ exponent`.
def ofDyadic (mantissa exponent : Int) : Decimal :=
  if 0 ≤ exponent then ofParts (mantissa * 2 ^ exponent.toNat) 0
  else ofParts (mantissa * 5 ^ (-exponent).toNat) exponent

def toRat (d : Decimal) : ℚ :=
  if 0 ≤ d.exponent then ((d.mantissa * 10 ^ d.exponent.toNat : Int) : ℚ)
  else mkRat d.mantissa (10 ^ (-d.exponent).toNat)

section Form

-- Trailing zeros go to the exponent.
theorem stripZeros_mul_pow (n : Nat) (hn : n % 10 ≠ 0) (k fuel : Nat) (e : Int) (hfuel : k ≤ fuel) :
    stripZeros fuel (n * 10 ^ k) e = (n, e + k) := by
  induction k generalizing fuel e with
  | zero => cases fuel <;> simp [stripZeros, hn]
  | succ k ih =>
      obtain ⟨fuel, rfl⟩ : ∃ f, fuel = f + 1 := ⟨fuel - 1, by omega⟩
      have hmod : n * 10 ^ (k + 1) % 10 = 0 := by
        rw [pow_succ, ← Nat.mul_assoc]
        exact Nat.mul_mod_left _ _
      have hdiv : n * 10 ^ (k + 1) / 10 = n * 10 ^ k := by
        rw [pow_succ, ← Nat.mul_assoc]
        exact Nat.mul_div_cancel _ (by omega)
      rw [stripZeros, if_pos hmod, hdiv, ih fuel (e + 1) (by omega)]
      push_cast
      rw [Int.add_assoc, Int.add_comm 1]

theorem ofParts_mul_pow (d : Decimal) (k : Nat) : ofParts (d.mantissa * 10 ^ k) (d.exponent - k) = d := by
  obtain ⟨m, e, hnormal⟩ := d
  by_cases hm : m = 0
  · subst hm
    obtain ⟨-, rfl⟩ : True ∧ e = 0 := by simpa using hnormal
    simp [ofParts]
  · have hmod : m.natAbs % 10 ≠ 0 := by
      rcases hnormal with h | h
      · omega
      · exact absurd h.1 hm
    have hpos : 0 < m.natAbs := by omega
    have habs : (m * 10 ^ k).natAbs = m.natAbs * 10 ^ k := by
      rw [Int.natAbs_mul, Int.natAbs_pow]
      rfl
    have hk : k ≤ m.natAbs * 10 ^ k := by
      have hten : k < 10 ^ k := Nat.lt_pow_self (by omega)
      have hle : 10 ^ k ≤ m.natAbs * 10 ^ k := Nat.le_mul_of_pos_left _ hpos
      omega
    have hne : m * 10 ^ k ≠ 0 := by
      intro h
      have hzero : m.natAbs * 10 ^ k = 0 := by rw [← habs, h]; rfl
      rcases Nat.mul_eq_zero.mp hzero with h0 | h0
      · omega
      · exact absurd h0 (by positivity)
    have hsign : (m * 10 ^ k).sign = m.sign := by
      rw [Int.sign_mul, Int.sign_eq_one_of_pos (a := 10 ^ k) (by positivity), Int.mul_one]
    have hstrip := stripZeros_mul_pow m.natAbs hmod k (m.natAbs * 10 ^ k) (e - k) hk
    simp only [ofParts, dif_neg hne, habs, hstrip, hsign]
    have hmantissa : m.sign * m.natAbs = m := Int.sign_mul_natAbs m
    have hexponent : e - k + k = e := by omega
    simp only [hmantissa, hexponent]

theorem exponent_zero {d : Decimal} (hm : d.mantissa = 0) : d.exponent = 0 := by
  cases d.normal with
  | inl h => exact absurd (by rw [hm]; rfl) h
  | inr h => exact h.2

end Form

section Value

theorem toRat_eq (d : Decimal) : d.toRat = d.mantissa * 10 ^ d.exponent := by
  rw [toRat]
  split
  · rename_i hexponent
    have hpow : (10 : ℚ) ^ d.exponent = 10 ^ d.exponent.toNat := by
      rw [← zpow_natCast, Int.toNat_of_nonneg hexponent]
    rw [hpow]
    push_cast
    rfl
  · rename_i hexponent
    have hpow : (10 : ℚ) ^ d.exponent = (10 ^ (-d.exponent).toNat)⁻¹ := by
      rw [← zpow_natCast, ← zpow_neg, Int.toNat_of_nonneg (by omega), neg_neg]
    rw [Rat.mkRat_eq_div, hpow, div_eq_mul_inv]
    push_cast
    rfl

theorem toRat_nonneg_iff {d : Decimal} : 0 ≤ d.toRat ↔ 0 ≤ d.mantissa := by
  rw [toRat_eq, mul_nonneg_iff_of_pos_right (zpow_pos (by norm_num) _)]
  exact Int.cast_nonneg_iff

theorem toRat_nonneg {d : Decimal} (h : 0 ≤ d.mantissa) : 0 ≤ d.toRat := toRat_nonneg_iff.mpr h

theorem stripZeros_value (fuel n : Nat) (e : Int) :
    ((stripZeros fuel n e).1 : ℚ) * 10 ^ (stripZeros fuel n e).2 = n * 10 ^ e := by
  induction fuel generalizing n e with
  | zero => rfl
  | succ fuel ih =>
      rw [stripZeros]
      split
      · rename_i hmod
        have hn : (n : ℚ) = (n / 10 : Nat) * 10 := by
          exact_mod_cast (Nat.div_mul_cancel (Nat.dvd_of_mod_eq_zero hmod)).symm
        rw [ih, hn, zpow_add_one₀ (by norm_num)]
        ring
      · rfl

theorem toRat_ofParts (mantissa exponent : Int) :
    (ofParts mantissa exponent).toRat = mantissa * 10 ^ exponent := by
  rw [toRat_eq, ofParts]
  split
  · rename_i hzero
    simp [hzero]
  · have hvalue := stripZeros_value mantissa.natAbs mantissa.natAbs exponent
    have hsign : (mantissa : ℚ) = mantissa.sign * mantissa.natAbs := by
      rw [← Int.cast_natCast, ← Int.cast_mul, Int.sign_mul_natAbs]
    push_cast
    rw [mul_assoc, hvalue, ← mul_assoc, ← hsign]

theorem toRat_ofDyadic (mantissa exponent : Int) :
    (ofDyadic mantissa exponent).toRat = mantissa * twoPow exponent := by
  rw [ofDyadic, twoPow_eq]
  split
  · rename_i hexponent
    have hpow : (2 : ℚ) ^ exponent = 2 ^ exponent.toNat := by
      rw [← zpow_natCast, Int.toNat_of_nonneg hexponent]
    rw [toRat_ofParts, hpow]
    push_cast
    rw [mul_one]
  · rename_i hexponent
    have hfive : (5 : ℚ) ^ (-exponent).toNat = 5 ^ (-exponent) := by
      rw [← zpow_natCast, Int.toNat_of_nonneg (by omega)]
    have hpow : (2 : ℚ) ^ exponent = 5 ^ (-exponent) * 10 ^ exponent := by
      have hten : (10 : ℚ) = 5 * 2 := by norm_num
      rw [hten, mul_zpow, ← mul_assoc, ← zpow_add₀ (by norm_num), neg_add_cancel, zpow_zero, one_mul]
    rw [toRat_ofParts, hpow]
    push_cast
    rw [hfive, mul_assoc]

-- A value has one decimal: the digits of the other's factor of ten would end in zero.
theorem eq_of_toRat {c d : Decimal} (h : c.toRat = d.toRat) (hle : c.exponent ≤ d.exponent) : c = d := by
  obtain ⟨k, hk⟩ := Int.le.dest hle
  have hmantissa : c.mantissa = d.mantissa * 10 ^ k := by
    have hpow : (10 : ℚ) ^ d.exponent = 10 ^ k * 10 ^ c.exponent := by
      rw [← hk, zpow_add₀ (by norm_num), zpow_natCast, mul_comm]
    rw [toRat_eq, toRat_eq, hpow, ← mul_assoc] at h
    exact_mod_cast mul_right_cancel₀ (zpow_ne_zero _ (by norm_num)) h
  have hexponent : c.exponent = d.exponent - k := by omega
  have hc := ofParts_mul_pow c 0
  rw [pow_zero, mul_one, Nat.cast_zero, sub_zero, hmantissa, hexponent, ofParts_mul_pow] at hc
  exact hc.symm

theorem toRat_injective : Function.Injective toRat := by
  intro c d h
  rcases le_total c.exponent d.exponent with hle | hle
  · exact eq_of_toRat h hle
  · exact (eq_of_toRat h.symm hle).symm

end Value

end Decimal

end Benzene.Data
