import Benzene.Data.Decimal
import Benzene.Data.Py

namespace Benzene.Data

-- A Python float. A finite one is kept as its exact value, which a decimal
-- always is; a zero has no sign.
inductive PyFloat
  | finite (value : Decimal)
  | infinity (negative : Bool)
  | nan
deriving DecidableEq

namespace PyFloat

section Conversion

-- From here on a number rounds past the largest float.
def overflowBound : Nat := 2 ^ 1024 - 2 ^ 970

def overflows (d : Decimal) : Bool :=
  if 0 ≤ d.exponent then overflowBound ≤ d.mantissa.natAbs * 10 ^ d.exponent.toNat
  else overflowBound * 10 ^ (-d.exponent).toNat ≤ d.mantissa.natAbs

-- The double closest to a number, a tie to the even one.
def nearest (d : Decimal) : Decimal :=
  .ofDyadic (binary64.significand d.toRat) (binary64.lastPlace d.toRat)

-- The float a decimal literal reads as.
def ofDecimal (d : Decimal) : PyFloat :=
  if overflows d then .infinity (d.mantissa < 0) else .finite (nearest d)

-- `float(n)`.
def ofInt (n : Int) : Except PyError PyFloat :=
  if overflowBound ≤ n.natAbs then .error ⟨.overflowError, []⟩
  else .ok (.ofDecimal (Decimal.ofParts n 0))

-- `int(x)` drops the fraction.
def truncate : PyFloat → Except PyError Int
  | .finite d =>
      .ok (if 0 ≤ d.exponent then d.mantissa * 10 ^ d.exponent.toNat
        else d.mantissa.tdiv (10 ^ (-d.exponent).toNat))
  | .infinity _ => .error ⟨.overflowError, []⟩
  | .nan => .error ⟨.valueError, []⟩

end Conversion

section Text

-- The decimals of so many digits on both sides of `d`, the closer one first.
def neighbours (d : Decimal) (digits : Nat) : List Decimal :=
  let cut := (Str.ofNat d.mantissa.natAbs).length - digits
  let low := d.mantissa.natAbs / 10 ^ cut
  let rest := d.mantissa.natAbs % 10 ^ cut
  let below := Decimal.ofParts (d.mantissa.sign * low) (d.exponent + cut)
  let above := Decimal.ofParts (d.mantissa.sign * (low + 1)) (d.exponent + cut)
  if 2 * rest < 10 ^ cut ∨ 2 * rest = 10 ^ cut ∧ low % 2 = 0 then [below, above] else [above, below]

-- The decimal of the fewest digits that reads as the float; seventeen are enough.
def shortest (d : Decimal) : Decimal :=
  (((List.range 17).flatMap fun n => neighbours d (n + 1)).find? fun c => ofDecimal c = ofDecimal d).getD d

-- Where the decimal point stands in the digits.
def decimalPoint (d : Decimal) : Int :=
  if d.mantissa = 0 then 1 else (Str.ofNat d.mantissa.natAbs).length + d.exponent

def zeros (n : Int) : Str := List.replicate n.toNat (Str.digit 0)

-- At least two digits.
def exponentText (e : Int) : Str :=
  let digits := Str.ofNat e.natAbs
  ((if e < 0 then "e-" else "e+" : String) : Str) ++
    (if digits.length = 1 then Str.digit 0 :: digits else digits)

-- A decimal without its sign: positional up to sixteen digits before the point
-- and four zeros after it, scientific beyond.
def reprDigits (d : Decimal) : Str :=
  let digits := Str.ofNat d.mantissa.natAbs
  let point := decimalPoint d
  if point ≤ -4 ∨ 16 < point then
    let fraction : Str := if digits.length = 1 then [] else ("." : Str) ++ digits.drop 1
    digits.take 1 ++ fraction ++ exponentText (point - 1)
  else if point ≤ 0 then ("0." : Str) ++ zeros (-point) ++ digits
  else if (digits.length : Int) ≤ point then digits ++ zeros (point - digits.length) ++ (".0" : Str)
  else digits.take point.toNat ++ ("." : Str) ++ digits.drop point.toNat

def reprDecimal (d : Decimal) : Str :=
  if d.mantissa < 0 then ("-" : Str) ++ reprDigits d else reprDigits d

def repr : PyFloat → Str
  | .finite d => reprDecimal (shortest d)
  | .infinity negative => if negative then "-inf" else "inf"
  | .nan => "nan"

end Text

section Values

theorem toRat_nearest (d : Decimal) : (nearest d).toRat = binary64.round d.toRat := by
  rw [nearest, Decimal.toRat_ofDyadic, FloatFormat.round]

theorem overflows_iff (d : Decimal) : overflows d = true ↔ (overflowBound : ℚ) ≤ |d.toRat| := by
  rw [overflows, Decimal.toRat]
  split
  · rw [decide_eq_true_iff, ← Int.cast_abs, Int.abs_eq_natAbs, Int.natAbs_mul, Int.natAbs_pow]
    norm_cast
  · rw [decide_eq_true_iff, Rat.mkRat_eq_div, abs_div, Nat.abs_cast, le_div_iff₀ (by positivity), ← Int.cast_abs,
      Int.abs_eq_natAbs]
    norm_cast

-- Half a last place above the largest double.
theorem overflowBound_eq : (overflowBound : ℚ) = (2 ^ binary64.precision - 1 / 2) * twoPow 971 := by
  decide +kernel

theorem overflows_nearest {d : Decimal} (h : overflows d = false) : overflows (nearest d) = false := by
  rw [← Bool.not_eq_true, overflows_iff, not_le, overflowBound_eq] at h ⊢
  have hlargest := FloatFormat.round_le_largest (e := 971) (by decide) (abs_nonneg _) h
  have hunit := twoPow_pos 971
  rw [toRat_nearest, FloatFormat.abs_round]
  push_cast at hlargest
  linarith

theorem nearest_nearest (d : Decimal) : nearest (nearest d) = nearest d := by
  apply Decimal.toRat_injective
  rw [toRat_nearest, toRat_nearest, FloatFormat.round_round]

-- A float is read as itself.
theorem ofDecimal_of_finite {d value : Decimal} (h : ofDecimal d = .finite value) :
    ofDecimal value = .finite value := by
  unfold ofDecimal at h
  split at h
  · cases h
  · rename_i hfits
    cases h
    rw [ofDecimal, overflows_nearest (Bool.eq_false_iff.mpr hfits), nearest_nearest]
    rfl

theorem mantissa_nearest {d : Decimal} (h : 0 ≤ d.mantissa) : 0 ≤ (nearest d).mantissa := by
  rw [← Decimal.toRat_nonneg_iff, toRat_nearest]
  exact FloatFormat.round_nonneg (Decimal.toRat_nonneg h)

-- A whole number below the bound is a float.
theorem overflows_ofParts {n : Int} (h : n.natAbs < overflowBound) : overflows (Decimal.ofParts n 0) = false := by
  rw [← Bool.not_eq_true, overflows_iff, not_le, Decimal.toRat_ofParts, zpow_zero, mul_one, ← Int.cast_abs,
    Int.abs_eq_natAbs]
  exact_mod_cast h

-- The shortest text of a float reads as it.
theorem ofDecimal_shortest (d : Decimal) : ofDecimal (shortest d) = ofDecimal d := by
  unfold shortest
  cases hfound : ((List.range 17).flatMap fun n => neighbours d (n + 1)).find? fun c => ofDecimal c = ofDecimal d with
  | none => rfl
  | some c => simpa using List.find?_some hfound

end Values

end PyFloat

end Benzene.Data
