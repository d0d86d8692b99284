import Mathlib.Algebra.Order.Field.Rat
import Mathlib.Data.Int.Log
import Mathlib.Data.Rat.Floor
import Mathlib.Tactic.Linarith
import Mathlib.Tactic.Ring

namespace Benzene.Data

section Halves

-- The closest integer; a half goes to the even neighbour.
def roundHalfEven (x : ℚ) : Int :=
  if x - x.floor < 1 / 2 then x.floor
  else if 1 / 2 < x - x.floor then x.floor + 1
  else if x.floor % 2 = 0 then x.floor else x.floor + 1

theorem floor_le (x : ℚ) : (x.floor : ℚ) ≤ x := Int.floor_le x

theorem lt_floor_add_one (x : ℚ) : x < x.floor + 1 := Int.lt_floor_add_one x

theorem roundHalfEven_le (x : ℚ) : (roundHalfEven x : ℚ) ≤ x + 1 / 2 := by
  have hfloor := floor_le x
  unfold roundHalfEven
  split_ifs with hbelow habove heven
  · linarith
  · push_cast
    linarith
  · linarith
  · push_cast
    linarith

theorem le_roundHalfEven (x : ℚ) : x - 1 / 2 ≤ roundHalfEven x := by
  have hceil := lt_floor_add_one x
  unfold roundHalfEven
  split_ifs with hbelow habove heven
  · linarith
  · push_cast
    linarith
  · linarith
  · push_cast
    linarith

-- A number less than a half away rounds no further.
theorem roundHalfEven_le_of_lt {x : ℚ} {n : Int} (h : x < n + 1 / 2) : roundHalfEven x ≤ n := by
  have hle := roundHalfEven_le x
  have hlt : (roundHalfEven x : ℚ) < n + 1 := by linarith
  exact Int.lt_add_one_iff.mp (by exact_mod_cast hlt)

theorem le_roundHalfEven_of_lt {x : ℚ} {n : Int} (h : (n : ℚ) - 1 / 2 < x) : n ≤ roundHalfEven x := by
  have hle := le_roundHalfEven x
  have hlt : (n : ℚ) - 1 < roundHalfEven x := by linarith
  have hint : n - 1 < roundHalfEven x := by exact_mod_cast hlt
  omega

theorem roundHalfEven_intCast (n : Int) : roundHalfEven n = n :=
  le_antisymm (roundHalfEven_le_of_lt (by linarith)) (le_roundHalfEven_of_lt (by linarith))

theorem roundHalfEven_nonneg {x : ℚ} (h : 0 ≤ x) : 0 ≤ roundHalfEven x :=
  le_roundHalfEven_of_lt (by push_cast; linarith)

theorem roundHalfEven_mono {x y : ℚ} (h : x ≤ y) : roundHalfEven x ≤ roundHalfEven y := by
  have hfloor : x.floor ≤ y.floor := Int.floor_le_floor h
  by_cases hsame : x.floor = y.floor
  · -- both lie between the same two integers
    unfold roundHalfEven
    rw [hsame]
    split_ifs <;> first | omega | (exfalso; linarith)
  · have hbelow : (x.floor : ℚ) + 1 ≤ y.floor := by exact_mod_cast lt_of_le_of_ne hfloor hsame
    have hleft : roundHalfEven x ≤ x.floor + 1 := by
      unfold roundHalfEven
      split_ifs <;> omega
    have hright : y.floor ≤ roundHalfEven y := by
      unfold roundHalfEven
      split_ifs <;> omega
    have hint : x.floor + 1 ≤ y.floor := by exact_mod_cast hbelow
    omega

end Halves

-- The powers of two, by natural powers.
def twoPow (e : Int) : ℚ := if 0 ≤ e then ((2 ^ e.toNat : Nat) : ℚ) else mkRat 1 (2 ^ (-e).toNat)

theorem twoPow_eq (e : Int) : twoPow e = 2 ^ e := by
  rw [twoPow]
  split
  · rename_i hexponent
    have hpow : (2 : ℚ) ^ e = 2 ^ e.toNat := by
      rw [← zpow_natCast, Int.toNat_of_nonneg hexponent]
    rw [hpow]
    push_cast
    rfl
  · rename_i hexponent
    have hpow : (2 : ℚ) ^ e = (2 ^ (-e).toNat)⁻¹ := by
      rw [← zpow_natCast, ← zpow_neg, Int.toNat_of_nonneg (by omega), neg_neg]
    rw [Rat.mkRat_eq_div, hpow]
    push_cast
    rw [one_div]

theorem twoPow_pos (e : Int) : 0 < twoPow e := by
  rw [twoPow_eq]
  exact zpow_pos (by norm_num) e

theorem twoPow_add (e f : Int) : twoPow (e + f) = twoPow e * twoPow f := by
  rw [twoPow_eq, twoPow_eq, twoPow_eq, zpow_add₀ (by norm_num)]

theorem twoPow_natCast (n : Nat) : twoPow n = (2 ^ n : Int) := by
  rw [twoPow_eq, zpow_natCast]
  push_cast
  rfl

theorem twoPow_le {e f : Int} (h : e ≤ f) : twoPow e ≤ twoPow f := by
  rw [twoPow_eq, twoPow_eq]
  exact zpow_le_zpow_right₀ (by norm_num) h

-- A rounding of the rationals to some of them.
structure Rounding where
  round : ℚ → ℚ
  mono : ∀ {p q}, p ≤ q → round p ≤ round q
  round_round : ∀ q, round (round q) = round q

-- Numbers that are not rounded.
def Rounding.exact : Rounding := ⟨id, id, fun _ => rfl⟩

-- A binary floating-point format: how many bits its significands have, and the
-- exponent of its smallest positive number.
structure FloatFormat where
  precision : Nat
  minExponent : Int
  positive : 0 < precision

namespace FloatFormat

variable (format : FloatFormat)

-- The exponent of the last bit that is kept of `q`.
def lastPlace (q : ℚ) : Int := max format.minExponent (Int.log 2 |q| + 1 - format.precision)

def significand (q : ℚ) : Int :=
  if q < 0 then -roundHalfEven (-q / twoPow (format.lastPlace q))
  else roundHalfEven (q / twoPow (format.lastPlace q))

-- The closest number of the format, were its exponents unbounded above.
def round (q : ℚ) : ℚ := format.significand q * twoPow (format.lastPlace q)

-- What the format holds.
def Holds (q : ℚ) : Prop :=
  ∃ m e : Int, m.natAbs < 2 ^ format.precision ∧ format.minExponent ≤ e ∧ q = m * twoPow e

variable {format} {p q : ℚ}

theorem lastPlace_neg (q : ℚ) : format.lastPlace (-q) = format.lastPlace q := by
  rw [lastPlace, lastPlace, abs_neg]

theorem round_of_nonneg (h : 0 ≤ q) :
    format.round q = roundHalfEven (q / twoPow (format.lastPlace q)) * twoPow (format.lastPlace q) := by
  rw [round, significand, if_neg (not_lt.mpr h)]

theorem round_zero : format.round 0 = 0 := by
  rw [round_of_nonneg le_rfl, zero_div, ← Int.cast_zero, roundHalfEven_intCast]
  simp

theorem round_nonneg (h : 0 ≤ q) : 0 ≤ format.round q := by
  rw [round_of_nonneg h]
  have hscaled : 0 ≤ q / twoPow (format.lastPlace q) := div_nonneg h (twoPow_pos _).le
  exact mul_nonneg (by exact_mod_cast roundHalfEven_nonneg hscaled) (twoPow_pos _).le

theorem round_neg (q : ℚ) : format.round (-q) = -format.round q := by
  rcases lt_trichotomy q 0 with hneg | rfl | hpos
  · rw [round, round, significand, significand, lastPlace_neg, if_neg (by linarith), if_pos hneg]
    push_cast
    ring
  · rw [neg_zero, round_zero, neg_zero]
  · rw [round, round, significand, significand, lastPlace_neg, if_pos (by linarith), if_neg (by linarith), neg_neg]
    push_cast
    ring

theorem abs_round (q : ℚ) : |format.round q| = format.round |q| := by
  rcases le_total 0 q with h | h
  · rw [abs_of_nonneg h, abs_of_nonneg (round_nonneg h)]
  · have hneg : 0 ≤ format.round (-q) := round_nonneg (by linarith)
    rw [abs_of_nonpos h, ← abs_neg, ← round_neg, abs_of_nonneg hneg]

theorem minExponent_le (q : ℚ) : format.minExponent ≤ format.lastPlace q := le_max_left _ _

-- A number has no more bits before its last place than the format keeps.
theorem lt_lastPlace (q : ℚ) : |q| < twoPow (format.precision + format.lastPlace q) := by
  have hlog : |q| < twoPow (Int.log 2 |q| + 1) := by
    rw [twoPow_eq]
    exact_mod_cast Int.lt_zpow_succ_log_self (R := ℚ) one_lt_two |q|
  refine lt_of_lt_of_le hlog (twoPow_le ?_)
  have hplace : Int.log 2 |q| + 1 - format.precision ≤ format.lastPlace q := le_max_right _ _
  omega

-- A multiple of the last place is a bound that rounding does not cross.
theorem round_le {n e : Int} (h : 0 ≤ q) (hplace : format.lastPlace q ≤ e) (hle : q ≤ n * twoPow e) :
    format.round q ≤ n * twoPow e := by
  obtain ⟨k, hk⟩ := Int.le.dest hplace
  have hpow : (n : ℚ) * twoPow e = (n * 2 ^ k : Int) * twoPow (format.lastPlace q) := by
    rw [← hk, add_comm, twoPow_add, twoPow_natCast]
    push_cast
    ring
  rw [hpow] at hle ⊢
  rw [round_of_nonneg h]
  have hround := roundHalfEven_mono ((div_le_iff₀ (twoPow_pos _)).mpr hle)
  rw [roundHalfEven_intCast] at hround
  exact mul_le_mul_of_nonneg_right (by exact_mod_cast hround) (twoPow_pos _).le

theorem le_round {n e : Int} (h : 0 ≤ q) (hplace : format.lastPlace q ≤ e) (hle : n * twoPow e ≤ q) :
    n * twoPow e ≤ format.round q := by
  obtain ⟨k, hk⟩ := Int.le.dest hplace
  have hpow : (n : ℚ) * twoPow e = (n * 2 ^ k : Int) * twoPow (format.lastPlace q) := by
    rw [← hk, add_comm, twoPow_add, twoPow_natCast]
    push_cast
    ring
  rw [hpow] at hle ⊢
  rw [round_of_nonneg h]
  have hround := roundHalfEven_mono ((le_div_iff₀ (twoPow_pos _)).mpr hle)
  rw [roundHalfEven_intCast] at hround
  exact mul_le_mul_of_nonneg_right (by exact_mod_cast hround) (twoPow_pos _).le

-- The last place grows with the number.
theorem lastPlace_le (hp : 0 < p) (hle : p ≤ q) : format.lastPlace p ≤ format.lastPlace q := by
  have hlog := Int.log_mono_right (b := 2) (abs_pos.mpr hp.ne') (abs_le_abs_of_nonneg hp.le hle)
  unfold lastPlace
  omega

theorem round_mono_of_nonneg (hp : 0 ≤ p) (hle : p ≤ q) : format.round p ≤ format.round q := by
  rcases hp.eq_or_lt with rfl | hpos
  · rw [round_zero]
    exact round_nonneg hle
  · have hq : 0 < q := hpos.trans_le hle
    have hplaces : format.lastPlace p ≤ format.lastPlace q := lastPlace_le hpos hle
    rcases hplaces.eq_or_lt with hsame | hless
    · rw [round_of_nonneg hp, round_of_nonneg hq.le, hsame]
      refine mul_le_mul_of_nonneg_right ?_ (twoPow_pos _).le
      exact_mod_cast roundHalfEven_mono (div_le_div_of_nonneg_right hle (twoPow_pos _).le)
    · -- the power of two that `q` begins with lies between them
      have hplace : format.lastPlace q = Int.log 2 |q| + 1 - format.precision := by
        have hmin : format.minExponent ≤ format.lastPlace p := minExponent_le p
        unfold lastPlace at hless hmin ⊢
        omega
      have hprecision := format.positive
      have hbelow : p ≤ (1 : Int) * twoPow (Int.log 2 |q|) := by
        have hlt : |p| < twoPow (format.precision + format.lastPlace p) := lt_lastPlace p
        rw [abs_of_nonneg hp] at hlt
        have hpow := twoPow_le (e := format.precision + format.lastPlace p) (f := Int.log 2 |q|) (by omega)
        push_cast
        linarith
      have habove : (1 : Int) * twoPow (Int.log 2 |q|) ≤ q := by
        have hlog := Int.zpow_log_le_self (b := 2) (R := ℚ) one_lt_two (abs_pos.mpr hq.ne')
        rw [twoPow_eq]
        rw [abs_of_nonneg hq.le] at hlog ⊢
        push_cast at hlog ⊢
        linarith
      exact (round_le hp (by omega) hbelow).trans (le_round hq.le (by omega) habove)

theorem round_mono (hle : p ≤ q) : format.round p ≤ format.round q := by
  rcases le_total 0 p with hp | hp
  · exact round_mono_of_nonneg hp hle
  · rcases le_total 0 q with hq | hq
    · have hneg : format.round p ≤ 0 := by
        have hpos : 0 ≤ format.round (-p) := round_nonneg (by linarith)
        rw [round_neg] at hpos
        linarith
      exact hneg.trans (round_nonneg hq)
    · have hflip : format.round (-q) ≤ format.round (-p) := round_mono_of_nonneg (by linarith) (by linarith)
      rw [round_neg, round_neg] at hflip
      linarith

theorem lastPlace_le_of_lt {e : Int} (hne : q ≠ 0) (he : format.minExponent ≤ e)
    (h : |q| < twoPow (format.precision + e)) : format.lastPlace q ≤ e := by
  rw [twoPow_eq] at h
  have hlog := (Int.lt_zpow_iff_log_lt (b := 2) one_lt_two (abs_pos.mpr hne)).mp (by exact_mod_cast h)
  unfold lastPlace
  omega

theorem le_lastPlace_of_le {e : Int} (h : twoPow (format.precision + e - 1) ≤ |q|) : e ≤ format.lastPlace q := by
  have hpos : 0 < |q| := (twoPow_pos _).trans_le h
  rw [twoPow_eq] at h
  have hlog := (Int.zpow_le_iff_le_log (b := 2) one_lt_two hpos).mp (by exact_mod_cast h)
  unfold lastPlace
  omega

theorem lastPlace_of_holds {m e : Int} (hne : m ≠ 0) (hm : m.natAbs < 2 ^ format.precision)
    (he : format.minExponent ≤ e) : format.lastPlace (m * twoPow e) ≤ e := by
  have hnonzero : (m : ℚ) * twoPow e ≠ 0 := mul_ne_zero (Int.cast_ne_zero.mpr hne) (twoPow_pos e).ne'
  refine lastPlace_le_of_lt hnonzero he ?_
  have hcast : |(m : ℚ)| < (2 ^ format.precision : Int) := by
    rw [← Int.cast_abs, Int.abs_eq_natAbs]
    exact_mod_cast hm
  rw [abs_mul, abs_of_pos (twoPow_pos e), twoPow_add, twoPow_natCast]
  exact mul_lt_mul_of_pos_right hcast (twoPow_pos e)

-- What the format holds is not rounded.
theorem round_of_holds (h : format.Holds q) : format.round q = q := by
  obtain ⟨m, e, hm, he, rfl⟩ := h
  rcases lt_trichotomy m 0 with hneg | rfl | hpos
  · have hm' : (-m).natAbs < 2 ^ format.precision := by rwa [Int.natAbs_neg]
    have hplace := lastPlace_of_holds (by omega) hm' he
    have hflip : (m : ℚ) * twoPow e = -((-m : Int) * twoPow e) := by
      push_cast
      ring
    have hnonneg : 0 ≤ ((-m : Int) : ℚ) * twoPow e :=
      mul_nonneg (Int.cast_nonneg (by omega)) (twoPow_pos e).le
    rw [hflip, round_neg, le_antisymm (round_le hnonneg hplace le_rfl) (le_round hnonneg hplace le_rfl)]
  · rw [Int.cast_zero, zero_mul, round_zero]
  · have hplace := lastPlace_of_holds (by omega) hm he
    have hnonneg : 0 ≤ (m : ℚ) * twoPow e := mul_nonneg (Int.cast_nonneg hpos.le) (twoPow_pos e).le
    exact le_antisymm (round_le hnonneg hplace le_rfl) (le_round hnonneg hplace le_rfl)

theorem natAbs_significand (q : ℚ) : (format.significand q).natAbs ≤ 2 ^ format.precision := by
  have hbound (x : ℚ) (hx : 0 ≤ x) (hlt : x < twoPow (format.precision + format.lastPlace q)) :
      (roundHalfEven (x / twoPow (format.lastPlace q))).natAbs ≤ 2 ^ format.precision := by
    have hscaled : x / twoPow (format.lastPlace q) ≤ ((2 ^ format.precision : Int) : ℚ) := by
      rw [div_le_iff₀ (twoPow_pos _), ← twoPow_natCast, ← twoPow_add]
      exact hlt.le
    have hround := roundHalfEven_mono hscaled
    rw [roundHalfEven_intCast] at hround
    have hnonneg := roundHalfEven_nonneg (div_nonneg hx (twoPow_pos (format.lastPlace q)).le)
    zify
    rwa [abs_of_nonneg hnonneg]
  have hlt : |q| < twoPow (format.precision + format.lastPlace q) := lt_lastPlace q
  unfold significand
  split_ifs with hneg
  · rw [Int.natAbs_neg]
    rw [abs_of_neg hneg] at hlt
    exact hbound (-q) (by linarith) hlt
  · rw [abs_of_nonneg (not_lt.mp hneg)] at hlt
    exact hbound q (not_lt.mp hneg) hlt

theorem holds_round (q : ℚ) : format.Holds (format.round q) := by
  have hmin : format.minExponent ≤ format.lastPlace q := minExponent_le q
  have hnatAbs : (format.significand q).natAbs ≤ 2 ^ format.precision := natAbs_significand q
  rcases hnatAbs.lt_or_eq with hlt | hcarry
  · exact ⟨format.significand q, format.lastPlace q, hlt, hmin, rfl⟩
  · -- a carry out of the significand moves the exponent
    obtain ⟨n, hn⟩ : ∃ n, format.precision = n + 1 := ⟨format.precision - 1, by have := format.positive; omega⟩
    refine ⟨(format.significand q).sign * 2 ^ n, format.lastPlace q + 1, ?_, by omega, ?_⟩
    · have hne : format.significand q ≠ 0 := by
        intro hzero
        rw [hzero] at hcarry
        exact absurd hcarry (Nat.two_pow_pos _).ne
      rw [Int.natAbs_mul, Int.natAbs_sign_of_ne_zero hne, one_mul, Int.natAbs_pow, hn]
      exact Nat.pow_lt_pow_right (by decide) (Nat.lt_succ_self n)
    · have hsignificand : format.significand q = (format.significand q).sign * 2 ^ n * 2 := by
        have hsplit := Int.sign_mul_natAbs (format.significand q)
        rw [hcarry, hn] at hsplit
        rw [mul_assoc, ← pow_succ]
        exact_mod_cast hsplit.symm
      rw [round, twoPow_add]
      nth_rewrite 1 [hsignificand]
      push_cast
      rw [twoPow_eq 1]
      ring

theorem round_round (q : ℚ) : format.round (format.round q) = format.round q := round_of_holds (holds_round q)

-- A number closer than half a last place to the largest significand does not round past it.
theorem round_le_largest {e : Int} (he : format.minExponent ≤ e) (h : 0 ≤ q)
    (hlt : q < (2 ^ format.precision - 1 / 2) * twoPow e) :
    format.round q ≤ (2 ^ format.precision - 1 : Int) * twoPow e := by
  rcases le_or_gt q ((2 ^ format.precision - 1 : Int) * twoPow e) with hle | hgt
  · have hholds : format.Holds ((2 ^ format.precision - 1 : Int) * twoPow e) := by
      refine ⟨2 ^ format.precision - 1, e, ?_, he, rfl⟩
      have hpos : (0 : Int) < 2 ^ format.precision := pow_pos (by decide) _
      zify
      rw [abs_of_nonneg (by omega)]
      omega
    exact (round_mono hle).trans_eq (round_of_holds hholds)
  · have hplace : format.lastPlace q = e := by
      obtain ⟨n, hn⟩ : ∃ n, format.precision = n + 1 := ⟨format.precision - 1, by have := format.positive; omega⟩
      have hhalf : (1 : ℚ) ≤ 2 ^ n := one_le_pow₀ (by norm_num)
      have hunit := twoPow_pos e
      have hpow : (2 : ℚ) ^ format.precision = 2 ^ n * 2 := by rw [hn, pow_succ]
      have hexponent : (format.precision : Int) + e - 1 = n + e := by omega
      rw [hpow] at hlt
      push_cast at hgt
      rw [hpow] at hgt
      have hlow : 2 ^ n * twoPow e ≤ (2 ^ n * 2 - 1) * twoPow e :=
        mul_le_mul_of_nonneg_right (by linarith) hunit.le
      have hhigh : (2 ^ n * 2 - 1 / 2) * twoPow e ≤ 2 ^ n * 2 * twoPow e :=
        mul_le_mul_of_nonneg_right (by linarith) hunit.le
      have hq : 0 < q := by
        have hpos : 0 < 2 ^ n * twoPow e := mul_pos (by positivity) hunit
        linarith
      apply le_antisymm
      · refine lastPlace_le_of_lt hq.ne' he ?_
        rw [abs_of_pos hq, twoPow_add, twoPow_natCast]
        push_cast
        rw [hpow]
        linarith
      · apply le_lastPlace_of_le
        rw [abs_of_pos hq, hexponent, twoPow_add, twoPow_natCast]
        push_cast
        linarith
    rw [round_of_nonneg h, hplace]
    refine mul_le_mul_of_nonneg_right ?_ (twoPow_pos e).le
    have hscaled : q / twoPow e < ((2 ^ format.precision - 1 : Int) : ℚ) + 1 / 2 := by
      rw [div_lt_iff₀ (twoPow_pos e)]
      push_cast
      linarith
    exact_mod_cast roundHalfEven_le_of_lt hscaled

def rounding (format : FloatFormat) : Rounding := ⟨format.round, round_mono, round_round⟩

end FloatFormat

-- The format of a double.
def binary64 : FloatFormat := ⟨53, -1074, by decide⟩

end Benzene.Data
