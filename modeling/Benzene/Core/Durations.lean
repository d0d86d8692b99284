import Benzene.Core.Mapping
import Benzene.Data.IsoDuration
import Mathlib.Tactic.FieldSimp
import Mathlib.Tactic.Ring

namespace Benzene.Core

open Benzene.Data Json IsoDuration

section Numerals

def numeral (n : Nat) : Numeral where
  digits := Str.ofNat n
  nonempty := by
    intro h
    by_cases hzero : n = 0
    · rw [hzero] at h
      cases h
    · obtain ⟨c, rest, heq, -⟩ := ofNat_head hzero
      rw [heq] at h
      cases h
  allDigits := isDigit_ofNat

theorem numeral_value (n : Nat) : (numeral n).value = n := readNat_ofNat n

theorem length_ofNat_le {n width : Nat} (hwidth : 0 < width) (h : n < 10 ^ width) :
    (Str.ofNat n).length ≤ width := by
  unfold Str.ofNat
  split
  · exact hwidth
  · rw [List.length_map, List.length_reverse]
    exact (Nat.digits_length_le_iff (by decide) n).mpr h

-- The six digits of a fraction are the ones written and the zeros left out.
theorem microsText_padded {micros : Nat} (h : micros < 10 ^ 6) :
    ∃ zeros, List.replicate (6 - (Str.ofNat micros).length) (Str.digit 0) ++ Str.ofNat micros =
        microsText micros ++ List.replicate zeros (Str.digit 0) ∧
      (microsText micros).length + zeros = 6 := by
  generalize hpadded : List.replicate (6 - (Str.ofNat micros).length) (Str.digit 0) ++ Str.ofNat micros = padded
  have hlength : padded.length = 6 := by
    have hle := length_ofNat_le (by decide) h
    rw [← hpadded, List.length_append, List.length_replicate]
    omega
  have hsplit := @List.takeWhile_append_dropWhile _ (fun c => decide (c = Str.digit 0)) padded.reverse
  have hzeros : ∀ c ∈ padded.reverse.takeWhile (fun c => decide (c = Str.digit 0)), c = Str.digit 0 := by
    intro c hc
    have hzero := List.mem_takeWhile_imp hc
    exact of_decide_eq_true hzero
  have hreplicate := List.eq_replicate_of_mem hzeros
  have htext : microsText micros = (padded.reverse.dropWhile fun c => decide (c = Str.digit 0)).reverse := by
    rw [← hpadded]
    rfl
  generalize padded.reverse.takeWhile (fun c => decide (c = Str.digit 0)) = zeros at hsplit hreplicate
  generalize padded.reverse.dropWhile (fun c => decide (c = Str.digit 0)) = kept at hsplit htext
  have hback : padded = kept.reverse ++ zeros.reverse := by
    rw [← List.reverse_append, hsplit, List.reverse_reverse]
  refine ⟨zeros.length, ?_, ?_⟩
  · rw [htext, hback]
    exact congrArg _ ((congrArg List.reverse hreplicate).trans List.reverse_replicate)
  · rw [hback, List.length_append, List.length_reverse, List.length_reverse] at hlength
    rw [htext, List.length_reverse]
    exact hlength

theorem readNat_microsText {micros : Nat} (h : micros < 10 ^ 6) :
    readNat (microsText micros) * 10 ^ (6 - (microsText micros).length) = micros ∧
      (microsText micros).length ≤ 6 := by
  obtain ⟨zeros, hpadded, hlength⟩ := microsText_padded h
  have hread := congrArg readNat hpadded
  rw [readNat_append, readNat_append, readNat_zeros, readNat_zeros, readNat_ofNat, List.length_replicate,
    Nat.zero_mul, Nat.zero_add, Nat.add_zero] at hread
  have hcount : 6 - (microsText micros).length = zeros := by omega
  rw [hcount]
  exact ⟨hread.symm, by omega⟩

theorem isDigit_microsText (micros : Nat) : ∀ c ∈ microsText micros, isDigit c = true := by
  intro c hc
  have hkept := (List.dropWhile_sublist _).mem (List.mem_reverse.mp hc)
  rw [List.mem_reverse, List.mem_append] at hkept
  cases hkept with
  | inl hzero =>
      rw [List.eq_of_mem_replicate hzero]
      exact isDigit_digit 0
  | inr hdigit => exact isDigit_ofNat c hdigit

theorem microsText_ne_nil {micros : Nat} (h : micros < 10 ^ 6) (hne : micros ≠ 0) : microsText micros ≠ [] := by
  intro hnil
  have hread := (readNat_microsText h).1
  rw [hnil] at hread
  exact hne hread.symm

def microsNumeral (micros : Nat) (h : micros < 10 ^ 6) (hne : micros ≠ 0) : Numeral :=
  ⟨microsText micros, microsText_ne_nil h hne, isDigit_microsText micros⟩

theorem microsNumeral_value {micros : Nat} (h : micros < 10 ^ 6) (hne : micros ≠ 0) :
    ((microsNumeral micros h hne).value : ℚ) / 10 ^ (microsNumeral micros h hne).digits.length =
      (micros : ℚ) / 10 ^ 6 := by
  obtain ⟨hread, hlength⟩ := readNat_microsText h
  have hpow : (10 : ℚ) ^ 6 = 10 ^ (microsText micros).length * 10 ^ (6 - (microsText micros).length) := by
    rw [← pow_add, Nat.add_sub_cancel' hlength]
  have hcast : (micros : ℚ) = readNat (microsText micros) * 10 ^ (6 - (microsText micros).length) := by
    rw [← hread]
    push_cast
    rw [hread]
  show (readNat (microsText micros) : ℚ) / 10 ^ (microsText micros).length = micros / 10 ^ 6
  rw [hpow, hcast]
  field_simp

end Numerals

section Parts

-- A part that is zero is left out.
def counted (n : Nat) : Option Numeral := if n = 0 then none else some (numeral n)

theorem amount_counted (n : Nat) : amount (counted n) = n := by
  unfold amount counted
  split
  · rename_i hzero
    rw [hzero]
    rfl
  · rw [Option.map_some, numeral_value]
    rfl

theorem part_counted (n : Nat) (unit : Char) :
    (if n = 0 then [] else Str.ofNat n ++ [CodePoint.ofChar unit]) = part unit (counted n) := by
  unfold counted
  split <;> rfl

theorem counted_eq_none {n : Nat} : counted n = none ↔ n = 0 := by
  unfold counted
  split <;> simp_all

theorem counted_value {n bound : Nat} (h : n < bound) : ∀ m ∈ counted n, m.value < bound := by
  intro m hm
  unfold counted at hm
  split at hm
  · cases hm
  · cases hm
    rw [numeral_value]
    exact h

-- The seconds are written where they or the rest of the duration need them.
def secondsOf (micros : Nat) : Option Seconds :=
  if hfraction : micros % 1000000 = 0 then
    if micros / 1000000 % 60 ≠ 0 ∨ micros / 60000000 = 0 then some ⟨numeral (micros / 1000000 % 60), none⟩
    else none
  else
    some ⟨numeral (micros / 1000000 % 60),
      some (microsNumeral (micros % 1000000) (Nat.mod_lt _ (by decide)) hfraction)⟩

theorem secondsOf_value (micros : Nat) :
    ((secondsOf micros).map Seconds.value).getD 0 =
      (micros / 1000000 % 60 : Nat) + ((micros % 1000000 : Nat) : ℚ) / 10 ^ 6 := by
  unfold secondsOf
  split
  · rename_i hfraction
    rw [hfraction]
    split
    · simp [Seconds.value, numeral_value]
    · rename_i hseconds
      have hzero : micros / 1000000 % 60 = 0 := by omega
      simp [hzero]
  · rename_i hfraction
    rw [Option.map_some, Option.getD_some, Seconds.value]
    dsimp only
    rw [@microsNumeral_value (micros % 1000000) (Nat.mod_lt _ (by decide)) hfraction, numeral_value]

theorem secondsOf_whole {micros : Nat} : ∀ s ∈ secondsOf micros, s.whole.value < 60 := by
  intro s hs
  have hlt : micros / 1000000 % 60 < 60 := Nat.mod_lt _ (by decide)
  unfold secondsOf at hs
  split at hs
  · split at hs
    · cases hs
      rw [numeral_value]
      exact hlt
    · cases hs
  · cases hs
    rw [numeral_value]
    exact hlt

def clockOf (micros : Nat) : Clock :=
  ⟨counted (micros / 3600000000 % 24), counted (micros / 60000000 % 60), secondsOf micros⟩

def durationOf (microseconds : Int) : Duration where
  negative := microseconds < 0
  days := counted (microseconds.natAbs / 86400000000)
  clock := clockOf microseconds.natAbs
  component := by
    by_cases hdays : microseconds.natAbs / 86400000000 = 0
    · right
      unfold Clock.isEmpty clockOf
      by_cases hhours : microseconds.natAbs / 3600000000 % 24 = 0
      · by_cases hminutes : microseconds.natAbs / 60000000 % 60 = 0
        · have hsmall : microseconds.natAbs / 60000000 = 0 := by omega
          have hseconds : (secondsOf microseconds.natAbs).isNone = false := by
            unfold secondsOf
            split
            · rw [if_pos (Or.inr hsmall)]
              rfl
            · rfl
          rw [hseconds, Bool.and_false]
        · unfold counted
          rw [if_neg hminutes]
          simp
      · unfold counted
        rw [if_neg hhours]
        rfl
    · left
      unfold counted
      rw [if_neg hdays]
      rfl

-- Its value is the number of microseconds it was made of.
theorem durationOf_value (microseconds : Int) : (durationOf microseconds).value * 10 ^ 6 = microseconds := by
  have hsum : (((microseconds.natAbs / 86400000000 * 86400 + microseconds.natAbs / 3600000000 % 24 * 3600 +
      microseconds.natAbs / 60000000 % 60 * 60 + microseconds.natAbs / 1000000 % 60) * 10 ^ 6 +
        microseconds.natAbs % 1000000 : Nat) : ℚ) = microseconds.natAbs := by
    congr 1
    omega
  push_cast at hsum
  have hsign : (if decide (microseconds < 0) = true then -1 else 1 : ℚ) * microseconds.natAbs = microseconds := by
    have hint : (if microseconds < 0 then -1 else 1 : Int) * (microseconds.natAbs : Int) = microseconds := by
      split <;> omega
    have hcast := congrArg (Int.cast : Int → ℚ) hint
    simpa only [Int.cast_mul, Int.cast_ite, Int.cast_neg, Int.cast_one, Int.cast_natCast, decide_eq_true_eq]
      using hcast
  unfold Duration.value durationOf clockOf
  dsimp only
  rw [amount_counted, amount_counted, amount_counted, secondsOf_value, ← hsign, ← hsum]
  ring

theorem secondsText_secondsOf (micros : Nat) :
    secondsText (secondsOf micros) =
      if micros % 1000000 ≠ 0 then
        Str.ofNat (micros / 1000000 % 60) ++ ("." : Str) ++ microsText (micros % 1000000) ++ ("S" : Str)
      else if micros / 1000000 % 60 ≠ 0 ∨ micros / 60000000 = 0 then
        Str.ofNat (micros / 1000000 % 60) ++ ("S" : Str)
      else [] := by
  unfold secondsOf
  by_cases hfraction : micros % 1000000 = 0
  · rw [dif_pos hfraction, if_neg (not_not.mpr hfraction)]
    split
    · rfl
    · rfl
  · rw [dif_neg hfraction, if_pos hfraction, List.append_assoc, List.append_assoc]
    rfl

-- The clock is empty where its text is.
theorem part_eq_nil {unit : Char} {n : Option Numeral} : part unit n = [] ↔ n = none := by
  cases n with
  | none => exact ⟨fun _ => rfl, fun _ => rfl⟩
  | some n => simp [part]

theorem secondsText_eq_nil {s : Option Seconds} : secondsText s = [] ↔ s = none := by
  cases s with
  | none => exact ⟨fun _ => rfl, fun _ => rfl⟩
  | some s =>
      obtain ⟨whole, fraction⟩ := s
      cases fraction <;> simp [secondsText, part]

theorem clock_isEmpty_iff (clock : Clock) : clock.isEmpty = true ↔ clock.text = [] := by
  unfold Clock.isEmpty Clock.text
  rw [List.append_eq_nil_iff, List.append_eq_nil_iff, part_eq_nil, part_eq_nil, secondsText_eq_nil,
    Bool.and_eq_true, Bool.and_eq_true, Option.isNone_iff_eq_none, Option.isNone_iff_eq_none,
    Option.isNone_iff_eq_none, and_assoc]

theorem isoDuration_eq_text (microseconds : Int) : isoDuration microseconds = (durationOf microseconds).text := by
  have hclock : part 'H' (counted (microseconds.natAbs / 3600000000 % 24)) ++
      part 'M' (counted (microseconds.natAbs / 60000000 % 60)) ++ secondsText (secondsOf microseconds.natAbs) =
        (clockOf microseconds.natAbs).text := List.append_assoc _ _ _
  have hempty : (microseconds.natAbs / 86400000000 = 0 ∧
      part 'H' (counted (microseconds.natAbs / 3600000000 % 24)) ++
        part 'M' (counted (microseconds.natAbs / 60000000 % 60)) = []) ↔
      microseconds.natAbs / 60000000 = 0 := by
    rw [List.append_eq_nil_iff, part_eq_nil, part_eq_nil, counted_eq_none, counted_eq_none]
    omega
  unfold isoDuration Duration.text
  simp only [part_counted, hempty]
  rw [← secondsText_secondsOf, hclock]
  simp only [durationOf, clock_isEmpty_iff, decide_eq_true_eq, List.append_assoc]
  rfl

end Parts

section TimeDelta

-- `datetime.timedelta`, by the parts it holds.
@[ext] structure TimeDelta where
  days : Int
  seconds : Nat
  microseconds : Nat
  secondsLt : seconds < 86400
  microsecondsLt : microseconds < 1000000
  range : -999999999 ≤ days ∧ days ≤ 999999999

namespace TimeDelta

def micros (value : TimeDelta) : Int := (value.days * 86400 + value.seconds) * 1000000 + value.microseconds

def isoDuration (value : TimeDelta) : Str := Core.isoDuration value.micros

theorem micros_injective {value other : TimeDelta} (h : value.micros = other.micros) : value = other := by
  have hseconds := value.secondsLt
  have hmicroseconds := value.microsecondsLt
  have hseconds' := other.secondsLt
  have hmicroseconds' := other.microsecondsLt
  unfold micros at h
  apply TimeDelta.ext <;> omega

end TimeDelta

-- What is written for a duration is a text of the grammar that denotes it, in
-- whole days, hours, minutes and seconds; so no other duration is written so.
theorem isoDuration_exact (value : TimeDelta) :
    (∃ d : Duration, value.isoDuration = d.text ∧ (∀ hours ∈ d.clock.hours, hours.value < 24) ∧
      (∀ minutes ∈ d.clock.minutes, minutes.value < 60) ∧
      (∀ seconds ∈ d.clock.seconds, seconds.whole.value < 60) ∧
      IsoDuration.read value.isoDuration = some d ∧ d.value * 10 ^ 6 = value.micros) ∧
      ∀ other : TimeDelta, value.isoDuration = other.isoDuration → value = other := by
  have hread (value : TimeDelta) : IsoDuration.read value.isoDuration = some (durationOf value.micros) := by
    rw [TimeDelta.isoDuration, isoDuration_eq_text, read_text]
  refine ⟨⟨durationOf value.micros, isoDuration_eq_text _, ?_, ?_, ?_, hread value, durationOf_value _⟩, ?_⟩
  · exact counted_value (Nat.mod_lt _ (by decide))
  · exact counted_value (Nat.mod_lt _ (by decide))
  · exact secondsOf_whole
  · intro other h
    have hsame : durationOf value.micros = durationOf other.micros := by
      have hboth := hread value
      rw [h, hread other] at hboth
      exact (Option.some.inj hboth).symm
    have hvalue := durationOf_value value.micros
    rw [hsame, durationOf_value] at hvalue
    exact TimeDelta.micros_injective (Int.cast_injective hvalue).symm

end TimeDelta

end Benzene.Core
