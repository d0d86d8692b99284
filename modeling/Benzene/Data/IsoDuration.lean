import Benzene.Data.JsonRoundTrip
import Mathlib.Data.List.TakeWhile
import Mathlib.Data.Rat.Defs

namespace Benzene.Data

open Json

-- A number as its digits.
structure Numeral where
  digits : Str
  nonempty : digits ≠ []
  allDigits : ∀ c ∈ digits, isDigit c = true

namespace Numeral

@[ext] theorem ext {n m : Numeral} (h : n.digits = m.digits) : n = m := by
  cases n
  cases m
  cases h
  rfl

def value (n : Numeral) : Nat := readNat n.digits

-- The number a text starts with, and the text after it.
def take (text : Str) : Option (Numeral × Str) :=
  if h : text.takeWhile isDigit = [] then none
  else some (⟨text.takeWhile isDigit, h, fun _ hc => List.mem_takeWhile_imp hc⟩, text.dropWhile isDigit)

theorem take_append (n : Numeral) {rest : Str} (hrest : EndsDigits rest) :
    take (n.digits ++ rest) = some (n, rest) := by
  have htake := takeWhile_digits n.allDigits hrest
  unfold take
  rw [dif_neg (by rw [htake]; exact n.nonempty)]
  refine congrArg some (Prod.ext (ext htake) ?_)
  exact dropWhile_digits n.allDigits hrest

theorem take_none {rest : Str} (hrest : EndsDigits rest) : take rest = none := by
  unfold take
  refine dif_pos ?_
  exact @takeWhile_digits [] _ (List.forall_mem_nil _) hrest

end Numeral

-- The durations of ISO 8601 without years, months and weeks:
-- `[-]P[nD][T[nH][nM][n[.f]S]]`, with one component at least.
namespace IsoDuration

structure Seconds where
  whole : Numeral
  fraction : Option Numeral

structure Clock where
  hours : Option Numeral
  minutes : Option Numeral
  seconds : Option Seconds

namespace Clock

def isEmpty (clock : Clock) : Bool := clock.hours.isNone && clock.minutes.isNone && clock.seconds.isNone

end Clock

structure Duration where
  negative : Bool
  days : Option Numeral
  clock : Clock
  component : days.isSome = true ∨ clock.isEmpty = false

section Text

def part (unit : Char) : Option Numeral → Str
  | some n => n.digits ++ [CodePoint.ofChar unit]
  | none => []

def secondsText : Option Seconds → Str
  | some ⟨whole, some fraction⟩ => whole.digits ++ CodePoint.ofChar '.' :: part 'S' (some fraction)
  | some ⟨whole, none⟩ => part 'S' (some whole)
  | none => []

def Clock.text (clock : Clock) : Str :=
  part 'H' clock.hours ++ (part 'M' clock.minutes ++ secondsText clock.seconds)

def Duration.text (d : Duration) : Str :=
  (if d.negative then [minus] else []) ++ (CodePoint.ofChar 'P' :: (part 'D' d.days ++
    if d.clock.isEmpty then [] else CodePoint.ofChar 'T' :: d.clock.text))

end Text

section Value

def Seconds.value (s : Seconds) : ℚ :=
  s.whole.value + match s.fraction with
    | some f => (f.value : ℚ) / 10 ^ f.digits.length
    | none => 0

def amount (n : Option Numeral) : ℚ := ((n.map Numeral.value).getD 0 : Nat)

-- In seconds.
def Duration.value (d : Duration) : ℚ :=
  (if d.negative then -1 else 1) *
    (amount d.days * 86400 + amount d.clock.hours * 3600 + amount d.clock.minutes * 60 +
      (d.clock.seconds.map Seconds.value).getD 0)

end Value

section Reading

-- A number with its unit, if the text starts with one.
def readPart (unit : Char) (text : Str) : Option Numeral × Str :=
  match Numeral.take text with
  | some (n, c :: rest) => if c = CodePoint.ofChar unit then (some n, rest) else (none, text)
  | _ => (none, text)

def readSeconds (text : Str) : Option Seconds × Str :=
  match Numeral.take text with
  | some (whole, c :: rest) =>
      if c = CodePoint.ofChar '.' then
        match readPart 'S' rest with
        | (some fraction, rest) => (some ⟨whole, some fraction⟩, rest)
        | (none, _) => (none, text)
      else if c = CodePoint.ofChar 'S' then (some ⟨whole, none⟩, rest)
      else (none, text)
  | _ => (none, text)

def readClock (text : Str) : Clock × Str :=
  let (hours, text) := readPart 'H' text
  let (minutes, text) := readPart 'M' text
  let (seconds, text) := readSeconds text
  (⟨hours, minutes, seconds⟩, text)

-- What follows the days: nothing, or a `T` and a clock that is not empty.
def readTime : Str → Option Clock
  | [] => some ⟨none, none, none⟩
  | c :: rest =>
      if c = CodePoint.ofChar 'T' ∧ (readClock rest).2 = [] ∧ (readClock rest).1.isEmpty = false then
        some (readClock rest).1
      else none

def read (text : Str) : Option Duration :=
  match (takeMinus text).2 with
  | c :: rest =>
      if c = CodePoint.ofChar 'P' then
        match readTime (readPart 'D' rest).2 with
        | some clock =>
            if h : (readPart 'D' rest).1.isSome = true ∨ clock.isEmpty = false then
              some ⟨(takeMinus text).1, (readPart 'D' rest).1, clock, h⟩
            else none
        | none => none
      else none
  | [] => none

end Reading

section RoundTrip

theorem endsDigits_cons {c : CodePoint} (h : isDigit c = false) (rest : Str) : EndsDigits (c :: rest) := by
  intro d tail heq
  rw [← (List.cons.inj heq).1]
  exact h

theorem endsDigits_nil : EndsDigits [] := by
  intro c tail heq
  cases heq

-- A part is read back where the text after it has none of its own unit.
theorem readPart_part (unit : Char) (hunit : isDigit (CodePoint.ofChar unit) = false) (n : Option Numeral)
    {rest : Str} (hrest : readPart unit rest = (none, rest)) :
    readPart unit (part unit n ++ rest) = (n, rest) := by
  cases n with
  | none => exact hrest
  | some n =>
      unfold part readPart
      rw [List.append_assoc, List.singleton_append, n.take_append (endsDigits_cons hunit rest)]
      exact if_pos rfl

theorem readPart_other {unit : Char} {c : CodePoint} (n : Numeral) (hc : isDigit c = false)
    (hne : c ≠ CodePoint.ofChar unit) (rest : Str) :
    readPart unit (n.digits ++ c :: rest) = (none, n.digits ++ c :: rest) := by
  unfold readPart
  rw [n.take_append (endsDigits_cons hc rest)]
  exact if_neg hne

theorem readPart_ends (unit : Char) {rest : Str} (h : EndsDigits rest) : readPart unit rest = (none, rest) := by
  unfold readPart
  rw [Numeral.take_none h]

theorem readPart_seconds {unit : Char} (h : unit ≠ '.' ∧ unit ≠ 'S') (s : Option Seconds) :
    readPart unit (secondsText s) = (none, secondsText s) := by
  have hpoint : CodePoint.ofChar '.' ≠ CodePoint.ofChar unit := fun heq => h.1 (CodePoint.ofChar_inj.mp heq).symm
  have hsecond : CodePoint.ofChar 'S' ≠ CodePoint.ofChar unit := fun heq => h.2 (CodePoint.ofChar_inj.mp heq).symm
  cases s with
  | none => exact readPart_ends unit endsDigits_nil
  | some s =>
      obtain ⟨whole, fraction⟩ := s
      cases fraction with
      | none => exact readPart_other whole rfl hsecond []
      | some fraction => exact readPart_other whole rfl hpoint _

theorem readPart_minutes (m : Option Numeral) (s : Option Seconds) :
    readPart 'H' (part 'M' m ++ secondsText s) = (none, part 'M' m ++ secondsText s) := by
  cases m with
  | none => exact readPart_seconds (by decide) s
  | some m =>
      unfold part
      rw [List.append_assoc]
      exact readPart_other m rfl (by decide) _

theorem readSeconds_text (s : Option Seconds) : readSeconds (secondsText s) = (s, []) := by
  cases s with
  | none => rfl
  | some s =>
      obtain ⟨whole, fraction⟩ := s
      cases fraction with
      | none =>
          unfold readSeconds secondsText part
          rw [whole.take_append (endsDigits_cons rfl [])]
          rfl
      | some fraction =>
          have hpart := readPart_part 'S' rfl (some fraction) (readPart_ends 'S' endsDigits_nil)
          rw [List.append_nil] at hpart
          unfold readSeconds secondsText
          rw [whole.take_append (endsDigits_cons rfl _)]
          dsimp only
          rw [if_pos rfl, hpart]

theorem readClock_text (clock : Clock) : readClock clock.text = (clock, []) := by
  have hhours := readPart_part 'H' rfl clock.hours (readPart_minutes clock.minutes clock.seconds)
  have hminutes :=
    readPart_part 'M' rfl clock.minutes (readPart_seconds (by decide : 'M' ≠ '.' ∧ 'M' ≠ 'S') clock.seconds)
  unfold readClock Clock.text
  rw [hhours]
  dsimp only
  rw [hminutes]
  dsimp only
  rw [readSeconds_text]

theorem readTime_text (clock : Clock) :
    readTime (if clock.isEmpty then [] else CodePoint.ofChar 'T' :: clock.text) = some clock := by
  cases hempty : clock.isEmpty with
  | true =>
      obtain ⟨hours, minutes, seconds⟩ := clock
      cases hours <;> cases minutes <;> cases seconds <;> first | rfl | cases hempty
  | false =>
      rw [if_neg Bool.false_ne_true]
      unfold readTime
      dsimp only
      rw [readClock_text, if_pos ⟨rfl, rfl, hempty⟩]

-- Each duration is read back from its text.
theorem read_text (d : Duration) : read d.text = some d := by
  obtain ⟨negative, days, clock, hcomponent⟩ := d
  have htime : EndsDigits (if clock.isEmpty then [] else CodePoint.ofChar 'T' :: clock.text) := by
    split
    · exact endsDigits_nil
    · exact endsDigits_cons rfl _
  have hdays := readPart_part 'D' rfl days (readPart_ends 'D' htime)
  have hminus (rest : Str) : takeMinus ((if negative then [minus] else []) ++ CodePoint.ofChar 'P' :: rest) =
      (negative, CodePoint.ofChar 'P' :: rest) := by
    cases negative <;> rfl
  unfold read Duration.text
  rw [hminus]
  dsimp only
  rw [if_pos rfl, hdays, readTime_text]
  exact dif_pos hcomponent

end RoundTrip

end IsoDuration

end Benzene.Data
