import Benzene.Data.Text

namespace Benzene.Data

-- RFC 3339 date-times with up to six fractional digits, read as microseconds
-- since the epoch.
namespace Rfc3339

abbrev Reader := StateT Str Option

def digit : Reader Nat := fun text =>
  match text with
  | c :: rest => if 0x30 ≤ c.val ∧ c.val ≤ 0x39 then some (c.val - 0x30, rest) else none
  | [] => none

def number : Nat → Reader Nat
  | 0 => return 0
  | width + 1 => do
      let high ← number width
      let low ← digit
      return 10 * high + low

def numberIn (width low high : Nat) : Reader Nat := do
  let n ← number width
  if low ≤ n ∧ n ≤ high then return n else failure

def oneOf (allowed : List Char) : Reader Unit := fun text =>
  match text with
  | c :: rest => if c ∈ allowed.map CodePoint.ofChar then some ((), rest) else none
  | [] => none

def isLeapYear (year : Nat) : Bool := year % 4 = 0 && (year % 100 ≠ 0 || year % 400 = 0)

def daysInMonth (year month : Nat) : Nat :=
  if month = 2 then if isLeapYear year then 29 else 28
  else if month ∈ [4, 6, 9, 11] then 30 else 31

-- From the first day of the year 0.
def daysBeforeYear (year : Nat) : Nat :=
  365 * year + (year + 3) / 4 - (year + 99) / 100 + (year + 399) / 400

def daysBeforeMonth (year month : Nat) : Nat :=
  ((List.range month).drop 1).foldl (fun days earlier => days + daysInMonth year earlier) 0

-- Days since 1970-01-01.
def fullDate : Reader Int := do
  let year ← number 4
  oneOf ['-']
  let month ← numberIn 2 1 12
  oneOf ['-']
  let day ← numberIn 2 1 (daysInMonth year month)
  return (daysBeforeYear year + daysBeforeMonth year month + (day - 1) : Nat) -
    (daysBeforeYear 1970 : Nat)

-- The microseconds of a fraction of a second, if there is one.
def secondFraction : Reader Nat := fun text =>
  match text with
  | c :: rest =>
      if c = CodePoint.ofChar '.' then
        let digits := rest.takeWhile fun d => 0x30 ≤ d.val ∧ d.val ≤ 0x39
        if digits = [] ∨ 6 < digits.length then none
        else
          let value := digits.foldl (fun value d => 10 * value + (d.val - 0x30)) 0
          some (value * 10 ^ (6 - digits.length), rest.drop digits.length)
      else some (0, text)
  | [] => some (0, [])

-- A leap second reads as the first second of the next minute.
def partialTime : Reader Int := do
  let hour ← numberIn 2 0 23
  oneOf [':']
  let minute ← numberIn 2 0 59
  oneOf [':']
  let second ← numberIn 2 0 60
  let micros ← secondFraction
  return ((hour * 3600 + minute * 60 + second) * 1000000 + micros : Nat)

-- The offset from UTC in minutes.
def timeOffset : Reader Int := fun text =>
  match text with
  | [] => none
  | c :: rest =>
      if c ∈ [CodePoint.ofChar 'Z', CodePoint.ofChar 'z'] then some (0, rest)
      else
        let numOffset : Reader Int := do
          let hour ← numberIn 2 0 23
          oneOf [':']
          let minute ← numberIn 2 0 59
          return (hour * 60 + minute : Nat)
        if c = CodePoint.ofChar '+' then numOffset rest
        else if c = CodePoint.ofChar '-' then (do return -(← numOffset)) rest
        else none

def dateTime : Reader Int := do
  let days ← fullDate
  oneOf ['T', 't']
  let micros ← partialTime
  let offset ← timeOffset
  return days * 86400000000 + micros - offset * 60000000

def instant (text : Str) : Option Int :=
  match dateTime text with
  | some (micros, []) => some micros
  | _ => none

theorem ne_nil_of_instant {text : Str} {t : Int} (h : instant text = some t) : text ≠ [] := by
  rintro rfl
  cases h

example : instant ("2026-01-01T10:00:00.5+01:30" : Str) = instant ("2026-01-01T08:30:00.500Z" : Str) := by
  decide +kernel

end Rfc3339

end Benzene.Data
