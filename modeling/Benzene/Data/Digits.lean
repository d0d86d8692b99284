import Benzene.Data.NaturalOrder
import Benzene.Data.Unicode

namespace Benzene.Data

-- What the database adds for `isdigit`: characters such as a superscript that
-- are digits and no decimals.
class DigitData [UnicodeData] where
  digit : CodePoint → Bool
  notSpace : ∀ c, (UnicodeData.decimal c).isSome = true → UnicodeData.space c = false

-- No space is a decimal.
theorem UnicodeData.ascii_notSpace (c : CodePoint) (h : (UnicodeData.ascii.decimal c).isSome = true) :
    UnicodeData.ascii.space c = false := by
  cases h

@[reducible] def DigitData.ascii : @DigitData UnicodeData.ascii :=
  letI := UnicodeData.ascii
  { digit := fun _ => false, notSpace := UnicodeData.ascii_notSpace }

section Digits

variable [UnicodeData]

theorem isSpace_of_decimal [DigitData] {c : CodePoint} (h : (Str.decimalValue c).isSome = true) :
    Str.isSpace c = false := by
  unfold Str.decimalValue at h
  unfold Str.isSpace
  by_cases hascii : c.isAscii = true
  · rw [if_pos hascii] at h ⊢
    by_cases hdigit : 0x30 ≤ c.val ∧ c.val ≤ 0x39
    · simp only [Bool.or_eq_false_iff, Bool.and_eq_false_iff, decide_eq_false_iff_not]
      omega
    · rw [if_neg hdigit] at h
      cases h
  · rw [if_neg hascii] at h ⊢
    rw [Option.isSome_map] at h
    exact DigitData.notSpace c h

theorem dropWhile_isSpace {text : Str} (h : ∀ c ∈ text, Str.isSpace c = false) :
    text.dropWhile Str.isSpace = text := by
  cases text with
  | nil => rfl
  | cons c rest => rw [List.dropWhile_cons_of_neg (by simp [h c List.mem_cons_self])]

theorem strip_eq_self {text : Str} (h : ∀ c ∈ text, Str.isSpace c = false) : Str.strip text = text := by
  unfold Str.strip
  rw [dropWhile_isSpace h, dropWhile_isSpace fun c hc => h c (List.mem_reverse.mp hc), List.reverse_reverse]

theorem mem_of_mem_strip {text : Str} {c : CodePoint} (h : c ∈ Str.strip text) : c ∈ text := by
  unfold Str.strip at h
  have hkept := (List.dropWhile_sublist _).mem (List.mem_reverse.mp h)
  exact (List.dropWhile_sublist _).mem (List.mem_reverse.mp hkept)

theorem readDigits_decimals {text : Str} (h : ∀ c ∈ text, (Str.decimalValue c).isSome = true) (acc : Nat)
    {afterDigit : Bool} (hany : afterDigit = true ∨ text ≠ []) :
    Str.readDigits acc afterDigit text = some (NaturalOrder.number Str.decimalValue acc text) := by
  induction text generalizing acc afterDigit with
  | nil =>
      have hafter : afterDigit = true := hany.resolve_right fun hne => hne rfl
      rw [Str.readDigits, if_pos hafter]
      rfl
  | cons c rest ih =>
      obtain ⟨d, hd⟩ := Option.isSome_iff_exists.mp (h c List.mem_cons_self)
      rw [Str.readDigits, NaturalOrder.number, hd]
      exact ih (fun c hc => h c (List.mem_cons_of_mem _ hc)) (acc * 10 + d) (Or.inl rfl)

theorem readDigits_other {text : Str} (h : ∀ c ∈ text, Str.decimalValue c = none) (acc : Nat) :
    Str.readDigits acc false text = none := by
  cases text with
  | nil => rfl
  | cons c rest =>
      rw [Str.readDigits, h c List.mem_cons_self]
      rfl

theorem decimalValue_sign {c : CodePoint} (h : (Str.decimalValue c).isSome = true) :
    c ≠ CodePoint.ofChar '-' ∧ c ≠ CodePoint.ofChar '+' := by
  constructor
  · rintro rfl
    cases h
  · rintro rfl
    cases h

-- `int` reads a run of decimals as its number.
theorem toInt?_decimals [DigitData] {run : Str} (hne : run ≠ [])
    (h : ∀ c ∈ run, (Str.decimalValue c).isSome = true) :
    Str.toInt? run = some (NaturalOrder.number Str.decimalValue 0 run : ℤ) := by
  unfold Str.toInt?
  rw [strip_eq_self fun c hc => isSpace_of_decimal (h c hc)]
  cases run with
  | nil => exact absurd rfl hne
  | cons c rest =>
      obtain ⟨hminus, hplus⟩ := decimalValue_sign (h c List.mem_cons_self)
      simp only [hminus, hplus, if_false]
      rw [readDigits_decimals h 0 (Or.inr hne)]
      rfl

-- It reads no text without a decimal.
theorem toInt?_other {text : Str} (h : ∀ c ∈ text, Str.decimalValue c = none) : Str.toInt? text = none := by
  unfold Str.toInt?
  have hstrip : ∀ c ∈ Str.strip text, Str.decimalValue c = none := fun c hc => h c (mem_of_mem_strip hc)
  cases hs : Str.strip text with
  | nil => rfl
  | cons c rest =>
      rw [hs] at hstrip
      have hrest := readDigits_other (fun c hc => hstrip c (List.mem_cons_of_mem _ hc)) 0
      simp [hrest, readDigits_other hstrip 0]

end Digits

section Runs

variable [UnicodeData] [DigitData]

def isDigitChar (c : CodePoint) : Bool :=
  (Str.decimalValue c).isSome || !c.isAscii && DigitData.digit c

-- `text.isdigit()`.
def isDigitRun (text : Str) : Bool := !text.isEmpty && text.all isDigitChar

theorem isDigitRun_iff {run : Str} (hne : run ≠ []) : isDigitRun run = true ↔ ∀ c ∈ run, isDigitChar c = true := by
  unfold isDigitRun
  rw [Bool.and_eq_true, List.all_eq_true]
  cases run with
  | nil => exact absurd rfl hne
  | cons c rest => simp

end Runs

end Benzene.Data
