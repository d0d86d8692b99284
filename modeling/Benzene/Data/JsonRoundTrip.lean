import Benzene.Data.JsonText
import Mathlib.Data.List.Chain

namespace Benzene.Data

-- Text without a high surrogate right before a low one. JSON text always joins
-- such a pair into one code point.
def Str.Joined (text : Str) : Prop :=
  text.IsChain fun a b => ¬(a.isHighSurrogate ∧ b.isLowSurrogate)

-- The code point that a high and a low surrogate stand for.
def CodePoint.join (high low : CodePoint) : CodePoint :=
  Json.codePoint (0x10000 + (high.val - 0xD800) * 0x400 + (low.val - 0xDC00))

-- Text as JSON text brings it back.
def Str.rejoin : Str → Str
  | high :: low :: rest =>
      if high.isHighSurrogate ∧ low.isLowSurrogate then CodePoint.join high low :: rejoin rest
      else high :: rejoin (low :: rest)
  | text => text

def CodePoint.IsPair (high low : CodePoint) : Prop := high.isHighSurrogate ∧ low.isLowSurrogate

theorem Str.rejoin_pair {high low : CodePoint} (h : high.IsPair low) (rest : Str) :
    rejoin (high :: low :: rest) = CodePoint.join high low :: rejoin rest := by
  rw [rejoin]
  exact if_pos h

theorem Str.rejoin_apart {high low : CodePoint} (h : ¬high.IsPair low) (rest : Str) :
    rejoin (high :: low :: rest) = high :: rejoin (low :: rest) := by
  rw [rejoin]
  exact if_neg h

theorem Str.rejoin_of_joined {text : Str} (h : text.Joined) : text.rejoin = text := by
  induction text using Str.pairInduction CodePoint.IsPair with
  | nil => rfl
  | singleton c => rfl
  | pair high low rest hpair ih => exact absurd hpair (List.isChain_cons_cons.mp h).1
  | apart high low rest hpair ih => rw [rejoin_apart hpair, ih (List.IsChain.tail h)]

namespace Json

section Strings

theorem hexValue_hexDigit (n : Nat) : hexValue (Str.hexDigit n) = some (n % 16) := by
  have hdigit (k : Nat) (hk : k < 16) : hexValue (Str.hexDigit k) = some k := by
    interval_cases k <;> rfl
  have hmod : Str.hexDigit (n % 16) = Str.hexDigit n := by simp [Str.hexDigit]
  rw [← hmod, hdigit _ (Nat.mod_lt _ (by omega))]

theorem readHex_hexFixed {unit : Nat} (h : unit < 0x10000) (rest : Str) :
    readHex (Str.hexFixed 4 unit ++ rest) = some (unit, rest) := by
  have hvalue : unit / 16 / 16 / 16 % 16 * 0x1000 + unit / 16 / 16 % 16 * 0x100 +
      unit / 16 % 16 * 0x10 + unit % 16 = unit := by omega
  simp only [Str.hexFixed, List.nil_append, List.cons_append, readHex, hexValue_hexDigit,
    Option.bind_eq_bind, Option.bind_some, Option.pure_def, hvalue]

theorem codePoint_val (c : CodePoint) : codePoint c.val = c :=
  Fin.ext (Nat.mod_eq_of_lt c.isLt)

-- Text that does not go on with the second half of a pair.
def NoLowUnit (rest : Str) : Prop := readLowUnit rest = some none

-- The two halves of a code point beyond the basic plane.
theorem surrogates {n : Nat} (hbasic : ¬n < 0x10000) (hn : n < 0x110000) :
    isHighUnit (0xD800 + (n - 0x10000) / 0x400) = true ∧
      isLowUnit (0xDC00 + (n - 0x10000) % 0x400) = true ∧
      0x10000 + (0xD800 + (n - 0x10000) / 0x400 - 0xD800) * 0x400 +
        (0xDC00 + (n - 0x10000) % 0x400 - 0xDC00) = n := by
  simp only [isHighUnit, isLowUnit, Bool.and_eq_true, decide_eq_true_eq]
  omega

-- A unicode escape reads back, unless a pair would be joined.
theorem readUnicodeEscape_basic {c : CodePoint} (hbasic : c.val < 0x10000) {rest : Str}
    (h : c.isHighSurrogate → NoLowUnit rest) :
    readUnicodeEscape (Str.hexFixed 4 c.val ++ rest) = some (c, rest) := by
  have hunit : isHighUnit c.val = c.isHighSurrogate := rfl
  simp only [readUnicodeEscape, readHex_hexFixed hbasic, Option.bind_eq_bind, Option.bind_some, hunit]
  cases hhigh : c.isHighSurrogate with
  | true =>
      have hrest : readLowUnit rest = some none := h hhigh
      simp only [if_true, hrest, Option.bind_some, Option.pure_def, codePoint_val]
  | false => simp only [Bool.false_eq_true, if_false, Option.pure_def, codePoint_val]

theorem readUnicodeEscape_units {first second : Nat} (hfirst : first < 0x10000)
    (hsecond : second < 0x10000) (hhigh : isHighUnit first = true) (hlow : isLowUnit second = true)
    (rest : Str) :
    readUnicodeEscape (Str.hexFixed 4 first ++ (unicodeEscape second ++ rest)) =
      some (codePoint (0x10000 + (first - 0xD800) * 0x400 + (second - 0xDC00)), rest) := by
  have hpair : readLowUnit (unicodeEscape second ++ rest) = some (some (second, rest)) := by
    simp only [unicodeEscape, List.cons_append, readLowUnit, and_self, if_true,
      readHex_hexFixed hsecond, Option.bind_eq_bind, Option.bind_some, Option.pure_def, hlow]
  simp only [readUnicodeEscape, readHex_hexFixed hfirst, Option.bind_eq_bind, Option.bind_some,
    hhigh, if_true, hpair, Option.pure_def]

theorem readUnicodeEscape_pair {c : CodePoint} (hbasic : ¬c.val < 0x10000) (rest : Str) :
    readUnicodeEscape (Str.hexFixed 4 (0xD800 + (c.val - 0x10000) / 0x400) ++
      (unicodeEscape (0xDC00 + (c.val - 0x10000) % 0x400) ++ rest)) = some (c, rest) := by
  obtain ⟨hhigh, hlow, hjoin⟩ := surrogates hbasic c.isLt
  have hc := c.isLt
  have hfirst : 0xD800 + (c.val - 0x10000) / 0x400 < 0x10000 := by omega
  have hsecond : 0xDC00 + (c.val - 0x10000) % 0x400 < 0x10000 := by omega
  rw [readUnicodeEscape_units hfirst hsecond hhigh hlow rest, hjoin, codePoint_val]

theorem readUnicodeEscape_utf16 (c : CodePoint) {rest : Str}
    (h : c.isHighSurrogate → NoLowUnit rest) :
    ∃ tail, (Str.utf16Char c).flatMap unicodeEscape ++ rest =
        CodePoint.backslash :: CodePoint.ofChar 'u' :: tail ∧
      readUnicodeEscape tail = some (c, rest) := by
  unfold Str.utf16Char
  by_cases hbasic : c.val < 0x10000
  · rw [if_pos hbasic]
    exact ⟨_, by simp [unicodeEscape], readUnicodeEscape_basic hbasic h⟩
  · rw [if_neg hbasic]
    exact ⟨_, by simp [unicodeEscape], readUnicodeEscape_pair hbasic rest⟩

theorem readEscape_short {c letter : CodePoint} (h : Entries.get? c shortEscapes = some letter)
    (rest : Str) : readEscape (letter :: rest) = some (c, rest) := by
  have hmem := Entries.mem_of_get? h
  simp only [shortEscapes, List.mem_cons, Prod.mk.injEq, List.not_mem_nil, or_false] at hmem
  rcases hmem with ⟨rfl, rfl⟩ | ⟨rfl, rfl⟩ | ⟨rfl, rfl⟩ | ⟨rfl, rfl⟩ | ⟨rfl, rfl⟩ | ⟨rfl, rfl⟩ |
    ⟨rfl, rfl⟩ <;> rfl

-- One escaped character reads back.
theorem scanString_escapeChar {c : CodePoint} {rest text tail : Str} {fuel : Nat}
    (hpair : c.isHighSurrogate → NoLowUnit rest) (h : scanString fuel rest = some (text, tail)) :
    scanString (fuel + 1) (escapeChar c ++ rest) = some (c :: text, tail) := by
  unfold escapeChar
  cases hshort : Entries.get? c shortEscapes with
  | some letter =>
      have hread := readEscape_short hshort rest
      simp [scanString, hread, h, CodePoint.backslash, CodePoint.quotation]
  | none =>
      have hquote : c ≠ CodePoint.quotation := by
        rintro rfl
        exact absurd hshort (by decide)
      have hback : c ≠ CodePoint.backslash := by
        rintro rfl
        exact absurd hshort (by decide)
      dsimp only
      by_cases hplain : 0x20 ≤ c.val ∧ c.val < 0x7F
      · have hcontrol : ¬c.val < 0x20 := by omega
        rw [if_pos hplain]
        simp [scanString, hquote, hback, hcontrol, h]
      · rw [if_neg hplain]
        obtain ⟨escape, htext, hread⟩ := readUnicodeEscape_utf16 c hpair
        rw [htext]
        have hread' : readEscape (CodePoint.ofChar 'u' :: escape) = some (c, rest) := by
          rw [readEscape, if_pos rfl, hread]
        simp [scanString, hread', h, CodePoint.backslash, CodePoint.quotation]

-- The escape of a character that is no low surrogate joins with nothing.
theorem noLowUnit_escapeChar {c : CodePoint} (h : c.isLowSurrogate = false) (rest : Str) :
    NoLowUnit (escapeChar c ++ rest) := by
  unfold NoLowUnit escapeChar
  cases hshort : Entries.get? c shortEscapes with
  | some letter =>
      have hletter : letter ≠ CodePoint.ofChar 'u' := by
        have hmem := Entries.mem_of_get? hshort
        rintro rfl
        revert hmem
        simp [shortEscapes, CodePoint.quotation, CodePoint.backslash, CodePoint.ofChar]
      simp [readLowUnit, hletter]
  | none =>
      have hback : c ≠ CodePoint.backslash := by
        rintro rfl
        exact absurd hshort (by decide)
      dsimp only
      by_cases hplain : 0x20 ≤ c.val ∧ c.val < 0x7F
      · rw [if_pos hplain]
        cases rest <;> simp [readLowUnit, hback]
      · rw [if_neg hplain]
        have hunit : ∃ unit tail, unit < 0x10000 ∧ isLowUnit unit = false ∧
            (Str.utf16Char c).flatMap unicodeEscape ++ rest =
              CodePoint.backslash :: CodePoint.ofChar 'u' :: (Str.hexFixed 4 unit ++ tail) := by
          unfold Str.utf16Char
          by_cases hbasic : c.val < 0x10000
          · rw [if_pos hbasic]
            exact ⟨c.val, rest, hbasic, h, by simp [unicodeEscape]⟩
          · rw [if_neg hbasic]
            have hc := c.isLt
            refine ⟨0xD800 + (c.val - 0x10000) / 0x400,
              unicodeEscape (0xDC00 + (c.val - 0x10000) % 0x400) ++ rest, by omega, ?_,
              by simp [unicodeEscape]⟩
            rw [isLowUnit, Bool.and_eq_false_iff, decide_eq_false_iff_not, decide_eq_false_iff_not]
            omega
        obtain ⟨unit, tail, hsmall, hlow, htext⟩ := hunit
        rw [htext]
        simp [readLowUnit, readHex_hexFixed hsmall, hlow]

theorem noLowUnit_quotation (rest : Str) : NoLowUnit (CodePoint.quotation :: rest) := by
  unfold NoLowUnit
  cases rest <;> simp [readLowUnit, CodePoint.quotation, CodePoint.backslash]

-- A surrogate is written as its own escape.
theorem escapeChar_surrogate {c : CodePoint} (h : 0xD800 ≤ c.val ∧ c.val ≤ 0xDFFF) :
    escapeChar c = unicodeEscape c.val := by
  have hshort : Entries.get? c shortEscapes = none := by
    cases hget : Entries.get? c shortEscapes with
    | none => rfl
    | some letter =>
        have hmem := Entries.mem_of_get? hget
        simp only [shortEscapes, List.mem_cons, Prod.mk.injEq, List.not_mem_nil, or_false] at hmem
        exfalso
        rcases hmem with ⟨rfl, -⟩ | ⟨rfl, -⟩ | ⟨rfl, -⟩ | ⟨rfl, -⟩ | ⟨rfl, -⟩ | ⟨rfl, -⟩ | ⟨rfl, -⟩ <;>
          exact absurd h (by decide)
  unfold escapeChar Str.utf16Char
  rw [hshort, if_neg (by omega), if_pos (by omega)]
  simp

-- The escapes of a pair read as the one code point.
theorem scanString_pair {high low : CodePoint} (hhigh : high.isHighSurrogate = true)
    (hlow : low.isLowSurrogate = true) {rest text tail : Str} {fuel : Nat}
    (h : scanString fuel rest = some (text, tail)) :
    scanString (fuel + 1) (escapeChar high ++ (escapeChar low ++ rest)) =
      some (CodePoint.join high low :: text, tail) := by
  have hhighRange : 0xD800 ≤ high.val ∧ high.val ≤ 0xDBFF := by
    simpa [CodePoint.isHighSurrogate] using hhigh
  have hlowRange : 0xDC00 ≤ low.val ∧ low.val ≤ 0xDFFF := by
    simpa [CodePoint.isLowSurrogate] using hlow
  have hread : readUnicodeEscape (Str.hexFixed 4 high.val ++ (unicodeEscape low.val ++ rest)) =
      some (CodePoint.join high low, rest) :=
    readUnicodeEscape_units (by omega) (by omega) hhigh hlow rest
  have hescape : readEscape (CodePoint.ofChar 'u' :: (Str.hexFixed 4 high.val ++
      (unicodeEscape low.val ++ rest))) = some (CodePoint.join high low, rest) := by
    rw [readEscape, if_pos rfl, hread]
  have htext : escapeChar high ++ (escapeChar low ++ rest) = CodePoint.backslash ::
      CodePoint.ofChar 'u' :: (Str.hexFixed 4 high.val ++ (unicodeEscape low.val ++ rest)) := by
    rw [escapeChar_surrogate (by omega), escapeChar_surrogate (by omega)]
    simp [unicodeEscape]
  rw [htext]
  simp [scanString, hescape, h, CodePoint.backslash, CodePoint.quotation]

-- A string reads back to its closing quotation mark, its pairs joined.
theorem scanString_escaped (text rest : Str) (fuel : Nat) (hfuel : text.length < fuel) :
    scanString fuel (text.flatMap escapeChar ++ CodePoint.quotation :: rest) =
      some (text.rejoin, rest) := by
  induction text using Str.pairInduction CodePoint.IsPair generalizing fuel with
  | nil =>
      obtain ⟨fuel, rfl⟩ : ∃ k, fuel = k + 1 := ⟨fuel - 1, by omega⟩
      simp [scanString, Str.rejoin]
  | singleton c =>
      obtain ⟨fuel, rfl⟩ : ∃ k, fuel = k + 2 := ⟨fuel - 2, by simp at hfuel; omega⟩
      rw [List.flatMap_cons, List.append_assoc]
      refine scanString_escapeChar (fun _ => noLowUnit_quotation rest) ?_
      simp [scanString]
  | pair high low text hpair ih =>
      obtain ⟨fuel, rfl⟩ : ∃ k, fuel = k + 1 := ⟨fuel - 1, by simp at hfuel; omega⟩
      have htail := ih fuel (by simp at hfuel; omega)
      rw [List.flatMap_cons, List.flatMap_cons, List.append_assoc, List.append_assoc, Str.rejoin_pair hpair]
      exact scanString_pair hpair.1 hpair.2 htail
  | apart high low text hpair ih =>
      obtain ⟨fuel, rfl⟩ : ∃ k, fuel = k + 1 := ⟨fuel - 1, by simp at hfuel; omega⟩
      have htail := ih fuel (by simp at hfuel ⊢; omega)
      rw [List.flatMap_cons, List.append_assoc, Str.rejoin_apart hpair]
      refine scanString_escapeChar (fun hhigh => ?_) htail
      rw [List.flatMap_cons, List.append_assoc]
      refine noLowUnit_escapeChar ?_ _
      simpa [CodePoint.IsPair, hhigh] using hpair

end Strings

section Digits

-- The text that follows does not go on with another digit.
def EndsDigits (rest : Str) : Prop := ∀ c tail, rest = c :: tail → isDigit c = false

theorem takeWhile_digits {digits rest : Str} (h : ∀ c ∈ digits, isDigit c = true)
    (hrest : EndsDigits rest) : (digits ++ rest).takeWhile isDigit = digits := by
  rw [List.takeWhile_append_of_pos h]
  cases rest with
  | nil => simp
  | cons c tail => simp [hrest c tail rfl]

theorem dropWhile_digits {digits rest : Str} (h : ∀ c ∈ digits, isDigit c = true)
    (hrest : EndsDigits rest) : (digits ++ rest).dropWhile isDigit = rest := by
  rw [List.dropWhile_append_of_pos h]
  cases rest with
  | nil => simp
  | cons c tail => simp [hrest c tail rfl]

theorem isDigit_digit (d : Nat) : isDigit (Str.digit d) = true := by
  unfold isDigit Str.digit
  rw [Bool.and_eq_true, decide_eq_true_eq, decide_eq_true_eq]
  dsimp only
  omega

theorem digit_val (d : Nat) : (Str.digit d).val - 0x30 = d % 10 := by
  simp only [Str.digit]
  omega

theorem readNat_append (a b : Str) : readNat (a ++ b) = readNat a * 10 ^ b.length + readNat b := by
  have hfold (start : Nat) : b.foldl (fun n c => n * 10 + (c.val - 0x30)) start =
      start * 10 ^ b.length + readNat b := by
    unfold readNat
    induction b generalizing start with
    | nil => simp
    | cons c b ih =>
        rw [List.foldl_cons, List.foldl_cons, ih, ih (0 * 10 + (c.val - 0x30)), List.length_cons]
        ring
  unfold readNat at hfold ⊢
  rw [List.foldl_append, hfold]

theorem readNat_digits (digits : List Nat) (h : ∀ d ∈ digits, d < 10) :
    readNat (digits.reverse.map Str.digit) = Nat.ofDigits 10 digits := by
  induction digits with
  | nil => rfl
  | cons d digits ih =>
      have hd : d % 10 = d := Nat.mod_eq_of_lt (h d List.mem_cons_self)
      have hrest := ih fun other hother => h other (List.mem_cons_of_mem _ hother)
      have hlast : readNat [Str.digit d] = d := by
        simp only [readNat, List.foldl_cons, List.foldl_nil, Nat.zero_mul, Nat.zero_add, digit_val, hd]
      rw [List.reverse_cons, List.map_append, readNat_append, hrest, Nat.ofDigits_cons, List.map_cons,
        List.map_nil, hlast]
      simp only [List.length_singleton, pow_one]
      omega

theorem readNat_ofNat (n : Nat) : readNat (Str.ofNat n) = n := by
  unfold Str.ofNat
  split
  · rename_i hzero
    rw [hzero]
    rfl
  · rw [readNat_digits _ fun d hd => Nat.digits_lt_base (by omega) hd, Nat.ofDigits_digits]

theorem isDigit_ofNat {n : Nat} : ∀ c ∈ Str.ofNat n, isDigit c = true := by
  unfold Str.ofNat
  split
  · intro c hc
    rw [List.mem_singleton.mp hc]
    exact isDigit_digit 0
  · intro c hc
    obtain ⟨d, -, rfl⟩ := List.mem_map.mp hc
    exact isDigit_digit d

-- The digits of a number that is not zero start with no zero.
theorem ofNat_head {n : Nat} (h : n ≠ 0) : ∃ c rest, Str.ofNat n = c :: rest ∧ c ≠ Str.digit 0 := by
  unfold Str.ofNat
  rw [if_neg h]
  have hne : Nat.digits 10 n ≠ [] := Nat.digits_ne_nil_iff_ne_zero.mpr h
  have hlast := Nat.getLast_digit_ne_zero 10 h
  have hsmall : (Nat.digits 10 n).getLast hne < 10 :=
    Nat.digits_lt_base (by omega) (List.getLast_mem hne)
  generalize hd : (Nat.digits 10 n).getLast hne = d at hlast hsmall
  have hsplit : Nat.digits 10 n = (Nat.digits 10 n).dropLast ++ [d] := by
    rw [← hd, List.dropLast_append_getLast]
  refine ⟨Str.digit d, (Nat.digits 10 n).dropLast.reverse.map Str.digit, ?_, fun heq => ?_⟩
  · conv_lhs => rw [hsplit]
    simp
  · have hval := congrArg (fun c : CodePoint => c.val) heq
    simp only [Str.digit] at hval
    omega

-- What `integerPart` takes: a zero alone, or digits that start with no zero.
def IntegerText (text : Str) : Prop :=
  text = [Str.digit 0] ∨ (∀ c ∈ text, isDigit c = true) ∧ ∃ c rest, text = c :: rest ∧ c ≠ Str.digit 0

theorem integerText_ofNat (n : Nat) : IntegerText (Str.ofNat n) := by
  by_cases h : n = 0
  · exact Or.inl (by simp [Str.ofNat, h])
  · exact Or.inr ⟨isDigit_ofNat, ofNat_head h⟩

theorem integerPart_append {text rest : Str} (h : IntegerText text) (hrest : EndsDigits rest) :
    integerPart (text ++ rest) = some (text, rest) := by
  rcases h with rfl | ⟨hdigits, c, tail, rfl, hc⟩
  · simp [integerPart]
  · have htail : ∀ d ∈ tail, isDigit d = true := fun d hd => hdigits d (List.mem_cons_of_mem _ hd)
    simp only [List.cons_append, integerPart, if_neg hc, hdigits c List.mem_cons_self, if_true,
      takeWhile_digits htail hrest, dropWhile_digits htail hrest]

end Digits

section Numbers

-- The text that follows does not go on with a number.
def EndsNumber (rest : Str) : Prop := ∀ c tail, rest = c :: tail →
  isDigit c = false ∧ c ≠ CodePoint.ofChar '.' ∧ c ≠ CodePoint.ofChar 'e' ∧ c ≠ CodePoint.ofChar 'E'

theorem EndsNumber.endsDigits {rest : Str} (h : EndsNumber rest) : EndsDigits rest :=
  fun c tail heq => (h c tail heq).1

theorem EndsNumber.fractionPart {rest : Str} (h : EndsNumber rest) : fractionPart rest = none := by
  cases rest with
  | nil => rfl
  | cons c tail => simp [Json.fractionPart, (h c tail rfl).2.1]

theorem EndsNumber.exponentPart {rest : Str} (h : EndsNumber rest) : exponentPart rest = none := by
  cases rest with
  | nil => rfl
  | cons c tail => simp [Json.exponentPart, (h c tail rfl).2.2]

def signText (negative : Bool) : Str := if negative then [minus] else []

theorem takeMinus_signText {negative : Bool} {digits rest : Str} {c : CodePoint}
    (hc : isDigit c = true) : takeMinus (signText negative ++ c :: digits ++ rest) =
      (negative, c :: digits ++ rest) := by
  cases negative with
  | true => simp [signText, takeMinus]
  | false =>
      have hminus : c ≠ minus := by
        rintro rfl
        exact absurd hc (by decide)
      simp [signText, takeMinus, hminus]

theorem IntegerText.head {text : Str} (h : IntegerText text) :
    ∃ c digits, text = c :: digits ∧ isDigit c = true := by
  rcases h with rfl | ⟨hdigits, c, tail, rfl, -⟩
  · exact ⟨_, [], rfl, isDigit_digit 0⟩
  · exact ⟨c, tail, rfl, hdigits c List.mem_cons_self⟩

theorem takeMinus_integerText (negative : Bool) {text : Str} (h : IntegerText text) (rest : Str) :
    takeMinus (signText negative ++ text ++ rest) = (negative, text ++ rest) := by
  obtain ⟨c, digits, rfl, hc⟩ := h.head
  exact takeMinus_signText hc

theorem matchNumber_int (negative : Bool) {integer rest : Str} (h : IntegerText integer)
    (hrest : EndsNumber rest) :
    matchNumber (signText negative ++ integer ++ rest) =
      some (.int (if negative then -(readNat integer : Int) else readNat integer), rest) := by
  simp only [matchNumber, takeMinus_integerText negative h, integerPart_append h hrest.endsDigits,
    Option.bind_eq_bind, Option.bind_some, hrest.fractionPart, hrest.exponentPart, Option.pure_def]

theorem matchNumber_ofInt (n : Int) {rest : Str} (hrest : EndsNumber rest) :
    matchNumber (Str.ofInt n ++ rest) = some (.int n, rest) := by
  have htext : Str.ofInt n = signText (n < 0) ++ Str.ofNat n.natAbs := by
    unfold Str.ofInt signText
    by_cases h : n < 0 <;> simp [h, minus]
  have hvalue : (if decide (n < 0) then -(n.natAbs : Int) else n.natAbs) = n := by
    by_cases h : n < 0
    · simp only [h, decide_true, if_true]
      omega
    · simp only [h, decide_false, Bool.false_eq_true, if_false]
      omega
  rw [htext, matchNumber_int _ (integerText_ofNat _) hrest, readNat_ofNat, hvalue]

theorem fractionPart_append {fraction rest : Str} (h : ∀ c ∈ fraction, isDigit c = true)
    (hne : fraction ≠ []) (hrest : EndsDigits rest) :
    fractionPart (CodePoint.ofChar '.' :: fraction ++ rest) = some (fraction, rest) := by
  simp only [List.cons_append, fractionPart, takeWhile_digits h hrest, dropWhile_digits h hrest,
    true_and, if_pos hne]

-- The exponent as it is written reads back.
theorem exponentPart_append (e : Int) {rest : Str} (hrest : EndsDigits rest) :
    exponentPart (PyFloat.exponentText e ++ rest) = some (e, rest) := by
  have hdigits : ∃ digits, PyFloat.exponentText e =
      CodePoint.ofChar 'e' :: CodePoint.ofChar (if e < 0 then '-' else '+') :: digits ∧
      (∀ c ∈ digits, isDigit c = true) ∧ digits ≠ [] ∧ readNat digits = e.natAbs := by
    have hne : Str.ofNat e.natAbs ≠ [] := by
      obtain ⟨c, tail, htext, -⟩ := (integerText_ofNat e.natAbs).head
      simp [htext]
    refine ⟨if (Str.ofNat e.natAbs).length = 1 then Str.digit 0 :: Str.ofNat e.natAbs
      else Str.ofNat e.natAbs, ?_, ?_, ?_, ?_⟩
    · unfold PyFloat.exponentText
      by_cases h : e < 0 <;> simp [h, Str.ofString]
    · split
      · intro c hc
        rcases List.mem_cons.mp hc with rfl | hc
        · exact isDigit_digit 0
        · exact isDigit_ofNat c hc
      · exact isDigit_ofNat
    · split
      · simp
      · exact hne
    · split
      · have hzero := readNat_append [Str.digit 0] (Str.ofNat e.natAbs)
        rw [readNat_ofNat] at hzero
        simpa [readNat, Str.digit] using hzero
      · exact readNat_ofNat _
  obtain ⟨digits, htext, hall, hne, hvalue⟩ := hdigits
  rw [htext]
  have htake := takeWhile_digits hall hrest
  have hdrop := dropWhile_digits hall hrest
  by_cases h : e < 0
  · have he : -(e.natAbs : Int) = e := by omega
    simp only [if_pos h, List.cons_append, exponentPart, true_or, if_true, signedDigits, takeMinus,
      minus, Bool.not_true, Bool.false_eq_true, false_and, if_false, htake, hdrop, if_neg hne, hvalue, he]
  · have he : (e.natAbs : Int) = e := by omega
    have hplus : CodePoint.ofChar '+' ≠ minus := by decide
    simp only [if_neg h, List.cons_append, exponentPart, true_or, if_true, signedDigits, takeMinus,
      if_neg hplus, Bool.not_false, true_and, List.head?_cons, List.tail_cons, htake, hdrop,
      if_neg hne, Bool.false_eq_true, if_false, hvalue, he]

section Floats

-- Digits and an exponent that spell a decimal.
theorem floatOf_eq {d : Decimal} {digits : Str} {exponent : Int} (k : Nat)
    (hdigits : readNat digits = d.mantissa.natAbs * 10 ^ k) (hexponent : exponent = d.exponent - k) :
    floatOf (d.mantissa < 0) digits exponent = .float (PyFloat.ofDecimal d) := by
  have hvalue : (if decide (d.mantissa < 0) then -(readNat digits : Int) else readNat digits) =
      d.mantissa * 10 ^ k := by
    rw [hdigits, Nat.cast_mul, Nat.cast_pow, Nat.cast_ofNat]
    by_cases h : d.mantissa < 0
    · rw [if_pos (by simpa using h), ← Int.neg_mul]
      congr 1
      omega
    · rw [if_neg (by simpa using h)]
      congr 1
      omega
  unfold floatOf
  simp only [hvalue, hexponent, Decimal.ofParts_mul_pow]

theorem matchNumber_fraction (negative : Bool) {integer fraction rest : Str} (h : IntegerText integer)
    (hfraction : ∀ c ∈ fraction, isDigit c = true) (hne : fraction ≠ []) (hrest : EndsNumber rest) :
    matchNumber (signText negative ++ integer ++ (CodePoint.ofChar '.' :: fraction ++ rest)) =
      some (floatOf negative (integer ++ fraction) (-fraction.length), rest) := by
  have hpoint : EndsDigits (CodePoint.ofChar '.' :: fraction ++ rest) := by
    rintro c tail heq
    cases heq
    decide
  simp only [matchNumber, takeMinus_integerText negative h, integerPart_append h hpoint,
    Option.bind_eq_bind, Option.bind_some, fractionPart_append hfraction hne hrest.endsDigits,
    hrest.exponentPart, Option.getD_none, Option.pure_def, Int.zero_sub]

theorem matchNumber_exponent (negative : Bool) {integer fraction rest : Str} (h : IntegerText integer)
    (hfraction : ∀ c ∈ fraction, isDigit c = true) (e : Int) (hrest : EndsNumber rest) :
    matchNumber (signText negative ++ integer ++
        ((if fraction = [] then [] else CodePoint.ofChar '.' :: fraction) ++
          (PyFloat.exponentText e ++ rest))) =
      some (floatOf negative (integer ++ fraction) (e - fraction.length), rest) := by
  have hletter : ∃ tail, PyFloat.exponentText e = CodePoint.ofChar 'e' :: tail := by
    unfold PyFloat.exponentText
    by_cases he : e < 0
    · exact ⟨_, by rw [if_pos he]; rfl⟩
    · exact ⟨_, by rw [if_neg he]; rfl⟩
  obtain ⟨tail, htail⟩ := hletter
  have hexponent := exponentPart_append e hrest.endsDigits
  have hends : EndsDigits (PyFloat.exponentText e ++ rest) := by
    rw [htail]
    rintro c text heq
    cases heq
    decide
  have hnofraction : fractionPart (PyFloat.exponentText e ++ rest) = none := by
    have hpoint : CodePoint.ofChar 'e' ≠ CodePoint.ofChar '.' := by decide
    rw [htail, List.cons_append, fractionPart, if_neg fun h => hpoint h.1]
  by_cases hne : fraction = []
  · subst hne
    simp only [if_true, List.nil_append, matchNumber, takeMinus_integerText negative h,
      integerPart_append h hends, Option.bind_eq_bind, Option.bind_some, hnofraction, hexponent,
      Option.pure_def, List.append_nil, List.length_nil, Nat.cast_zero, Int.sub_zero]
  · have hpoint : EndsDigits (CodePoint.ofChar '.' :: fraction ++ (PyFloat.exponentText e ++ rest)) := by
      rintro c text heq
      cases heq
      decide
    simp only [if_neg hne, matchNumber, takeMinus_integerText negative h, integerPart_append h hpoint,
      Option.bind_eq_bind, Option.bind_some, fractionPart_append hfraction hne hends, hexponent,
      Option.getD_some, Option.pure_def]

theorem readNat_zeros (n : Nat) : readNat (List.replicate n (Str.digit 0)) = 0 := by
  induction n with
  | zero => rfl
  | succ n ih =>
      rw [List.replicate_succ', readNat_append, ih]
      rfl

theorem isDigit_zeros (n : Int) : ∀ c ∈ PyFloat.zeros n, isDigit c = true := by
  intro c hc
  rw [List.eq_of_mem_replicate hc]
  exact isDigit_digit 0

theorem integerText_append {text digits : Str} (h : IntegerText text) (hne : text ≠ [Str.digit 0])
    (hdigits : ∀ c ∈ digits, isDigit c = true) : IntegerText (text ++ digits) := by
  rcases h with rfl | ⟨hall, c, tail, rfl, hc⟩
  · exact absurd rfl hne
  · refine Or.inr ⟨fun d hd => ?_, c, tail ++ digits, rfl, hc⟩
    rcases List.mem_append.mp hd with hd | hd
    · exact hall d hd
    · exact hdigits d hd

theorem integerText_take {text : Str} (h : IntegerText text) {n : Nat} (hn : 0 < n) :
    IntegerText (text.take n) := by
  obtain ⟨n, rfl⟩ : ∃ k, n = k + 1 := ⟨n - 1, by omega⟩
  rcases h with rfl | ⟨hall, c, tail, rfl, hc⟩
  · exact Or.inl (by simp)
  · refine Or.inr ⟨fun d hd => hall d (List.mem_of_mem_take hd), c, tail.take n, by simp, hc⟩

-- The digits of a decimal, and where its point stands in them.
structure Digits (d : Decimal) (digits : Str) (point : Int) : Prop where
  integer : IntegerText digits
  value : readNat digits = d.mantissa.natAbs
  all : ∀ c ∈ digits, isDigit c = true
  point : point = digits.length + d.exponent
  one : digits = [Str.digit 0] → d.exponent = 0

theorem digits_ofNat (d : Decimal) : Digits d (Str.ofNat d.mantissa.natAbs) (PyFloat.decimalPoint d) where
  integer := integerText_ofNat d.mantissa.natAbs
  value := readNat_ofNat d.mantissa.natAbs
  all := isDigit_ofNat
  point := by
    unfold PyFloat.decimalPoint
    split
    · rename_i hm
      rw [Decimal.exponent_zero hm, hm]
      rfl
    · rfl
  one := by
    intro hdigits
    have hvalue := readNat_ofNat d.mantissa.natAbs
    rw [hdigits] at hvalue
    have hm : d.mantissa.natAbs = 0 := hvalue.symm
    exact Decimal.exponent_zero (by omega)

namespace Digits

variable {d : Decimal} {digits rest : Str} {point : Int}

theorem length_pos (h : Digits d digits point) : 0 < digits.length := by
  obtain ⟨c, tail, rfl, -⟩ := h.integer.head
  simp

theorem drop (h : Digits d digits point) (n : Nat) : ∀ c ∈ digits.drop n, isDigit c = true :=
  fun c hc => h.all c (List.mem_of_mem_drop hc)

theorem dot : ("." : Str) = [CodePoint.ofChar '.'] := rfl

theorem matchNumber_scientific (h : Digits d digits point) (hrest : EndsNumber rest) :
    matchNumber (signText (d.mantissa < 0) ++ ((digits.take 1 ++
      (if digits.length = 1 then [] else ("." : Str) ++ digits.drop 1) ++
        PyFloat.exponentText (point - 1)) ++ rest)) = some (.float (PyFloat.ofDecimal d), rest) := by
  have hlength := h.length_pos
  have hpoint := h.point
  have hfraction : (if digits.length = 1 then [] else ("." : Str) ++ digits.drop 1) =
      if digits.drop 1 = [] then [] else CodePoint.ofChar '.' :: digits.drop 1 := by
    have hempty : digits.drop 1 = [] ↔ digits.length = 1 := by
      rw [List.drop_eq_nil_iff]
      omega
    simp only [hempty, dot, List.singleton_append]
  rw [hfraction, List.append_assoc, List.append_assoc, ← List.append_assoc (signText _),
    matchNumber_exponent _ (integerText_take h.integer Nat.one_pos) (h.drop 1) _ hrest,
    List.take_append_drop, floatOf_eq 0 (by rw [h.value, pow_zero, Nat.mul_one])]
  rw [List.length_drop]
  omega

theorem matchNumber_small (h : Digits d digits point) (hrest : EndsNumber rest) (hsmall : point ≤ 0) :
    matchNumber (signText (d.mantissa < 0) ++ (("0." : Str) ++ PyFloat.zeros (-point) ++ digits ++ rest)) =
      some (.float (PyFloat.ofDecimal d), rest) := by
  have hlength := h.length_pos
  have hpoint := h.point
  have hbody : ("0." : Str) ++ PyFloat.zeros (-point) ++ digits ++ rest =
      [Str.digit 0] ++ (CodePoint.ofChar '.' :: (PyFloat.zeros (-point) ++ digits) ++ rest) := by
    simp [Str.ofString]
    rfl
  have hfraction : ∀ c ∈ PyFloat.zeros (-point) ++ digits, isDigit c = true := by
    intro c hc
    cases List.mem_append.mp hc with
    | inl hzero => exact isDigit_zeros _ c hzero
    | inr hdigit => exact h.all c hdigit
  have hread : readNat ([Str.digit 0] ++ (PyFloat.zeros (-point) ++ digits)) =
      d.mantissa.natAbs * 10 ^ 0 := by
    rw [readNat_append, readNat_append, PyFloat.zeros, readNat_zeros, h.value]
    simp [readNat, Str.digit]
  have hne : PyFloat.zeros (-point) ++ digits ≠ [] := by
    intro hnil
    rw [List.append_eq_nil_iff] at hnil
    simp [hnil.2] at hlength
  rw [hbody, ← List.append_assoc, matchNumber_fraction _ (Or.inl rfl) hfraction hne hrest,
    floatOf_eq 0 hread]
  rw [List.length_append, PyFloat.zeros, List.length_replicate]
  omega

-- Zeros may follow the digits of a whole number, but not a lone zero.
theorem integerText_zeros (h : Digits d digits point) :
    IntegerText (digits ++ PyFloat.zeros (point - digits.length)) := by
  by_cases hdigits : digits = [Str.digit 0]
  · have hnone : (point - digits.length).toNat = 0 := by
      have hpoint := h.point
      rw [h.one hdigits] at hpoint
      omega
    rw [PyFloat.zeros, hnone, List.replicate_zero, List.append_nil]
    exact h.integer
  · exact integerText_append h.integer hdigits (isDigit_zeros _)

theorem matchNumber_whole (h : Digits d digits point) (hrest : EndsNumber rest)
    (hwhole : (digits.length : Int) ≤ point) :
    matchNumber (signText (d.mantissa < 0) ++
      (digits ++ PyFloat.zeros (point - digits.length) ++ (".0" : Str) ++ rest)) =
        some (.float (PyFloat.ofDecimal d), rest) := by
  have hpoint := h.point
  have hbody : digits ++ PyFloat.zeros (point - digits.length) ++ (".0" : Str) ++ rest =
      (digits ++ PyFloat.zeros (point - digits.length)) ++
        (CodePoint.ofChar '.' :: [Str.digit 0] ++ rest) := by
    simp [Str.ofString]
    rfl
  have hread : readNat (digits ++ PyFloat.zeros (point - digits.length) ++ [Str.digit 0]) =
      d.mantissa.natAbs * 10 ^ ((point - digits.length).toNat + 1) := by
    rw [readNat_append, readNat_append, h.value, PyFloat.zeros, readNat_zeros, pow_succ,
      List.length_replicate]
    simp [readNat, Str.digit, Nat.mul_assoc]
  rw [hbody, ← List.append_assoc, matchNumber_fraction _ h.integerText_zeros (by simp [isDigit_digit])
    (by simp) hrest, floatOf_eq _ hread]
  rw [List.length_singleton]
  omega

theorem matchNumber_inside (h : Digits d digits point) (hrest : EndsNumber rest) (hsmall : ¬point ≤ 0)
    (hwhole : ¬(digits.length : Int) ≤ point) :
    matchNumber (signText (d.mantissa < 0) ++
      (digits.take point.toNat ++ ("." : Str) ++ digits.drop point.toNat ++ rest)) =
        some (.float (PyFloat.ofDecimal d), rest) := by
  have hpoint := h.point
  have hbody : digits.take point.toNat ++ ("." : Str) ++ digits.drop point.toNat ++ rest =
      digits.take point.toNat ++ (CodePoint.ofChar '.' :: digits.drop point.toNat ++ rest) := by
    simp [dot]
  have hne : digits.drop point.toNat ≠ [] := by
    rw [ne_eq, List.drop_eq_nil_iff]
    omega
  rw [hbody, ← List.append_assoc,
    matchNumber_fraction _ (integerText_take h.integer (by omega)) (h.drop _) hne hrest,
    List.take_append_drop, floatOf_eq 0 (by rw [h.value, pow_zero, Nat.mul_one])]
  rw [List.length_drop]
  omega

end Digits

-- A decimal reads back as it is written, as the float it stands for.
theorem matchNumber_reprDecimal (d : Decimal) {rest : Str} (hrest : EndsNumber rest) :
    matchNumber (PyFloat.reprDecimal d ++ rest) = some (.float (PyFloat.ofDecimal d), rest) := by
  have htext : PyFloat.reprDecimal d = signText (d.mantissa < 0) ++ PyFloat.reprDigits d := by
    unfold PyFloat.reprDecimal signText
    by_cases h : d.mantissa < 0
    · rw [if_pos h, if_pos (by simpa using h)]
      rfl
    · rw [if_neg h, if_neg (by simpa using h)]
      rfl
  have hdigits := digits_ofNat d
  rw [htext, List.append_assoc]
  unfold PyFloat.reprDigits
  dsimp only
  by_cases hscientific : PyFloat.decimalPoint d ≤ -4 ∨ 16 < PyFloat.decimalPoint d
  · rw [if_pos hscientific]
    exact hdigits.matchNumber_scientific hrest
  · rw [if_neg hscientific]
    by_cases hsmall : PyFloat.decimalPoint d ≤ 0
    · rw [if_pos hsmall]
      exact hdigits.matchNumber_small hrest hsmall
    · rw [if_neg hsmall]
      by_cases hwhole : ((Str.ofNat d.mantissa.natAbs).length : Int) ≤ PyFloat.decimalPoint d
      · rw [if_pos hwhole]
        exact hdigits.matchNumber_whole hrest hwhole
      · rw [if_neg hwhole]
        exact hdigits.matchNumber_inside hrest hsmall hwhole

-- A float is written so that it reads as itself.
theorem matchNumber_float (d : Decimal) {rest : Str} (hrest : EndsNumber rest) :
    matchNumber (encodeFloat (.finite d) ++ rest) = some (.float (PyFloat.ofDecimal d), rest) := by
  rw [encodeFloat, matchNumber_reprDecimal _ hrest, PyFloat.ofDecimal_shortest]

end Floats

end Numbers

section Values

mutual

-- The values that JSON text carries as they are: the keys of an object differ,
-- a float is one that exists, and no text holds two halves of a pair.
def WellFormed : Json → Prop
  | .float (.finite d) => PyFloat.ofDecimal d = .finite d
  | .str s => s.Joined
  | .arr items => WellFormedItems items
  | .obj fields => (Entries.keys fields).Nodup ∧ WellFormedFields fields
  | _ => True

def WellFormedItems : List Json → Prop
  | [] => True
  | item :: rest => item.WellFormed ∧ WellFormedItems rest

def WellFormedFields : Fields → Prop
  | [] => True
  | (key, value) :: rest => key.Joined ∧ value.WellFormed ∧ WellFormedFields rest

end

theorem wellFormedItems_iff {items : List Json} :
    WellFormedItems items ↔ ∀ item ∈ items, item.WellFormed := by
  induction items with
  | nil => simp [WellFormedItems]
  | cons item rest ih => simp [WellFormedItems, ih]

theorem wellFormedFields_iff {fields : Fields} :
    WellFormedFields fields ↔ ∀ field ∈ fields, field.1.Joined ∧ field.2.WellFormed := by
  induction fields with
  | nil => simp [WellFormedFields]
  | cons field rest ih => simp [WellFormedFields, ih, and_assoc]

-- A number starts with a digit or with a minus sign.
theorem matchNumber_head {text : Str} {result : Json × Str} (h : matchNumber text = some result) :
    ∃ c rest, text = c :: rest ∧ (isDigit c = true ∨ c = minus) := by
  cases text with
  | nil => cases h
  | cons c rest =>
      refine ⟨c, rest, rfl, ?_⟩
      by_cases hminus : c = minus
      · exact Or.inr hminus
      · left
        by_contra hdigit
        have hzero : c ≠ Str.digit 0 := by
          rintro rfl
          exact hdigit (isDigit_digit 0)
        simp [matchNumber, takeMinus, hminus, integerPart, hzero, hdigit] at h

-- What a value is after it has been written and read: text with its pairs
-- joined, a float as the double it is, the last of the fields that share a key.
mutual

def reread : Json → Json
  | .float (.finite d) => .float (PyFloat.ofDecimal d)
  | .str text => .str text.rejoin
  | .arr items => .arr (rereadItems items)
  | .obj fields => .obj (Entries.update [] (rereadFields fields))
  | j => j

def rereadItems : List Json → List Json
  | [] => []
  | item :: rest => item.reread :: rereadItems rest

def rereadFields : Fields → Fields
  | [] => []
  | (key, value) :: rest => (key.rejoin, value.reread) :: rereadFields rest

end

theorem reread_of_wellFormed {j : Json} (h : j.WellFormed) : j.reread = j := by
  induction j using Json.induct with
  | float x =>
      cases x with
      | finite d =>
          have hdouble : PyFloat.ofDecimal d = .finite d := by simpa [WellFormed] using h
          rw [reread, hdouble]
      | _ => rfl
  | str text => rw [reread, Str.rejoin_of_joined h]
  | arr items ih =>
      have hitems : rereadItems items = items := by
        have hall := wellFormedItems_iff.mp h
        clear h
        induction items with
        | nil => rfl
        | cons item rest ihrest =>
            have hitem := ih item List.mem_cons_self (hall item List.mem_cons_self)
            have hrest := ihrest (fun other hother => ih other (List.mem_cons_of_mem _ hother))
              fun other hother => hall other (List.mem_cons_of_mem _ hother)
            rw [rereadItems, hitem, hrest]
      rw [reread, hitems]
  | obj fields ih =>
      have hfields : rereadFields fields = fields := by
        have hall := wellFormedFields_iff.mp h.2
        clear h
        induction fields with
        | nil => rfl
        | cons field rest ihrest =>
            obtain ⟨hkey, hvalue⟩ := hall field List.mem_cons_self
            have hfield := ih field List.mem_cons_self hvalue
            have hrest := ihrest (fun other hother => ih other (List.mem_cons_of_mem _ hother))
              fun other hother => hall other (List.mem_cons_of_mem _ hother)
            rw [rereadFields, Str.rejoin_of_joined hkey, hfield, hrest]
      rw [reread, hfields, Entries.update_nil_of_nodup h.1]
  | _ => rfl

section Text

variable (s : Separators)

-- The text of a value starts with no whitespace and no closing bracket.
theorem dumps_head (j : Json) :
    ∃ c tail, dumpsWith s j = c :: tail ∧ isWhitespace c = false ∧ c ≠ 0x5D := by
  have hnumber {text : Str} {result : Json × Str} (hmatch : matchNumber text = some result) :
      ∃ c tail, text = c :: tail ∧ isWhitespace c = false ∧ c ≠ 0x5D := by
    obtain ⟨c, tail, htext, hc⟩ := matchNumber_head hmatch
    refine ⟨c, tail, htext, ?_⟩
    rcases hc with hc | rfl
    · unfold isDigit at hc
      rw [Bool.and_eq_true, decide_eq_true_eq, decide_eq_true_eq] at hc
      constructor
      · simp only [isWhitespace, Bool.or_eq_false_iff, decide_eq_false_iff_not]
        omega
      · rintro rfl
        exact absurd hc (by decide)
    · decide
  have hend : EndsNumber [] := by
    rintro c tail heq
    cases heq
  cases j with
  | null => exact ⟨_, _, rfl, by decide, by decide⟩
  | bool b => cases b <;> exact ⟨_, _, rfl, by decide, by decide⟩
  | int n =>
      have hmatch := matchNumber_ofInt n hend
      rw [List.append_nil] at hmatch
      exact hnumber hmatch
  | float x =>
      cases x with
      | finite d =>
          have hmatch := matchNumber_float d hend
          rw [List.append_nil] at hmatch
          exact hnumber hmatch
      | infinity negative => cases negative <;> exact ⟨_, _, rfl, by decide, by decide⟩
      | nan => exact ⟨_, _, rfl, by decide, by decide⟩
  | str text => exact ⟨_, _, rfl, by decide, by decide⟩
  | arr items => exact ⟨_, _, rfl, by decide, by decide⟩
  | obj fields => exact ⟨_, _, rfl, by decide, by decide⟩

theorem dumps_length_pos (j : Json) : 0 < (dumpsWith s j).length := by
  obtain ⟨c, tail, htext, -⟩ := dumps_head s j
  simp [htext]

-- What is read back at the head of a text.
def ReadsBack (j : Json) : Prop := ∀ rest, EndsNumber rest → ∀ fuel, (dumpsWith s j).length ≤ fuel →
  scanOnce fuel (dumpsWith s j ++ rest) = some (j.reread, rest)

theorem scanOnce_of_matchNumber {text : Str} {result : Json × Str} (h : matchNumber text = some result)
    (fuel : Nat) : scanOnce (fuel + 1) text = some result := by
  obtain ⟨c, rest, rfl, hc⟩ := matchNumber_head h
  have hother : c ≠ CodePoint.quotation ∧ c ≠ 0x5B ∧ c ≠ 0x7B := by
    refine ⟨?_, ?_, ?_⟩ <;> rintro rfl <;> exact absurd hc (by decide)
  obtain ⟨hquote, hbracket, hbrace⟩ := hother
  rw [scanOnce, if_neg hquote, if_neg hbracket, if_neg hbrace, h]
  rfl

theorem scanOnce_of_matchWord {c : CodePoint} {rest : Str} {result : Json × Str}
    (hquote : c ≠ CodePoint.quotation) (hbracket : c ≠ 0x5B) (hbrace : c ≠ 0x7B)
    (hnumber : matchNumber (c :: rest) = none) (h : matchWord (c :: rest) = some result) (fuel : Nat) :
    scanOnce (fuel + 1) (c :: rest) = some result := by
  rw [scanOnce, if_neg hquote, if_neg hbracket, if_neg hbrace, hnumber, h]
  rfl

theorem fuel_succ {fuel n : Nat} (h : n ≤ fuel) (hn : 0 < n) : ∃ k, fuel = k + 1 :=
  ⟨fuel - 1, by omega⟩

variable {s}

theorem readsBack_word {j : Json} {c : CodePoint} {tail : Str} (htext : dumpsWith s j = c :: tail)
    (hquote : c ≠ CodePoint.quotation) (hbracket : c ≠ 0x5B) (hbrace : c ≠ 0x7B)
    (hnumber : ∀ rest, matchNumber (c :: tail ++ rest) = none)
    (h : ∀ rest, matchWord (c :: tail ++ rest) = some (j.reread, rest)) : ReadsBack s j := by
  intro rest _ fuel hfuel
  obtain ⟨fuel, rfl⟩ := fuel_succ hfuel (by simp [htext])
  rw [htext]
  exact scanOnce_of_matchWord hquote hbracket hbrace (hnumber rest) (h rest) fuel

theorem readsBack_null : ReadsBack s .null :=
  readsBack_word rfl (by decide) (by decide) (by decide) (fun _ => rfl) fun _ => rfl

theorem readsBack_bool (b : Bool) : ReadsBack s (.bool b) := by
  cases b with
  | true => exact readsBack_word rfl (by decide) (by decide) (by decide) (fun _ => rfl) fun _ => rfl
  | false => exact readsBack_word rfl (by decide) (by decide) (by decide) (fun _ => rfl) fun _ => rfl

theorem readsBack_int (n : Int) : ReadsBack s (.int n) := by
  intro rest hrest fuel hfuel
  obtain ⟨fuel, rfl⟩ := fuel_succ hfuel (dumps_length_pos s _)
  exact scanOnce_of_matchNumber (matchNumber_ofInt n hrest) fuel

theorem readsBack_float (x : PyFloat) : ReadsBack s (.float x) := by
  cases x with
  | finite d =>
      intro rest hrest fuel hfuel
      obtain ⟨fuel, rfl⟩ := fuel_succ hfuel (dumps_length_pos s _)
      exact scanOnce_of_matchNumber (matchNumber_float d hrest) fuel
  | infinity negative =>
      cases negative with
      | true => exact readsBack_word rfl (by decide) (by decide) (by decide) (fun _ => rfl) fun _ => rfl
      | false => exact readsBack_word rfl (by decide) (by decide) (by decide) (fun _ => rfl) fun _ => rfl
  | nan => exact readsBack_word rfl (by decide) (by decide) (by decide) (fun _ => rfl) fun _ => rfl

theorem skipWhitespace_of_head {c : CodePoint} (h : isWhitespace c = false) (rest : Str) :
    skipWhitespace (c :: rest) = c :: rest := by
  simp [skipWhitespace, h]

theorem skipWhitespace_blank {blank : Str} (h : ∀ c ∈ blank, isWhitespace c = true) (rest : Str) :
    skipWhitespace (blank ++ rest) = skipWhitespace rest :=
  List.dropWhile_append_of_pos h

theorem skipWhitespace_dumps (j : Json) (rest : Str) :
    skipWhitespace (dumpsWith s j ++ rest) = dumpsWith s j ++ rest := by
  obtain ⟨c, tail, hhead, hblank, -⟩ := dumps_head s j
  rw [hhead]
  exact skipWhitespace_of_head hblank _

theorem endsNumber_cons {c : CodePoint} (hdigit : isDigit c = false) (hpoint : c ≠ CodePoint.ofChar '.')
    (he : c ≠ CodePoint.ofChar 'e') (hE : c ≠ CodePoint.ofChar 'E') (rest : Str) :
    EndsNumber (c :: rest) := by
  rintro _ _ ⟨⟩
  exact ⟨hdigit, hpoint, he, hE⟩

theorem length_le_escaped (text : Str) : text.length ≤ (text.flatMap escapeChar).length := by
  induction text with
  | nil => simp
  | cons c text ih =>
      have hone : 0 < (escapeChar c).length := by
        unfold escapeChar
        split
        · simp
        · split
          · simp
          · unfold Str.utf16Char
            split <;> simp [unicodeEscape]
      rw [List.flatMap_cons, List.length_append, List.length_cons]
      omega

theorem scanString_encodeString (text rest : Str) :
    ∃ tail, encodeString text ++ rest = CodePoint.quotation :: tail ∧
      scanString (tail.length + 1) tail = some (text.rejoin, rest) := by
  refine ⟨text.flatMap escapeChar ++ CodePoint.quotation :: rest, by simp [encodeString], ?_⟩
  refine scanString_escaped text rest _ ?_
  have hlength := length_le_escaped text
  rw [List.length_append]
  omega

theorem readsBack_str (text : Str) : ReadsBack s (.str text) := by
  intro rest _ fuel hfuel
  obtain ⟨fuel, rfl⟩ := fuel_succ hfuel (dumps_length_pos s (.str text))
  obtain ⟨tail, htext, hscan⟩ := scanString_encodeString text rest
  rw [dumpsWith, htext, scanOnce, if_pos rfl, hscan]
  rfl

-- The items of an array read back to the closing bracket.
theorem parseItems_dumpsItems {items : List Json} (hne : items ≠ [])
    (hitems : ∀ item ∈ items, ReadsBack s item) (rest : Str) (fuel : Nat)
    (hfuel : (dumpsItemsWith s items).length < fuel) :
    parseItems fuel (dumpsItemsWith s items ++ 0x5D :: rest) = some (rereadItems items, rest) := by
  induction items generalizing fuel with
  | nil => exact absurd rfl hne
  | cons item others ih =>
      obtain ⟨fuel, rfl⟩ := fuel_succ (Nat.succ_le_of_lt hfuel) (Nat.succ_pos _)
      have hread := hitems item List.mem_cons_self
      cases others with
      | nil =>
          have hend : EndsNumber (0x5D :: rest) :=
            endsNumber_cons (by decide) (by decide) (by decide) (by decide) rest
          have hscan := hread _ hend fuel (by simp [dumpsItemsWith] at hfuel; omega)
          simp [parseItems, dumpsItemsWith, rereadItems, hscan,
            skipWhitespace_of_head (by decide : isWhitespace 0x5D = false)]
      | cons next others =>
          have htext : dumpsItemsWith s (item :: next :: others) ++ 0x5D :: rest =
              dumpsWith s item ++
                comma :: (s.item ++ (dumpsItemsWith s (next :: others) ++ 0x5D :: rest)) := by
            simp [dumpsItemsWith]
          have hlength : (dumpsWith s item).length + 1 + (dumpsItemsWith s (next :: others)).length ≤
              (dumpsItemsWith s (item :: next :: others)).length := by
            simp [dumpsItemsWith]
            omega
          have hend : EndsNumber
              (comma :: (s.item ++ (dumpsItemsWith s (next :: others) ++ 0x5D :: rest))) :=
            endsNumber_cons (by decide) (by decide) (by decide) (by decide) _
          have hscan := hread _ hend fuel (by omega)
          have hrest := ih (by simp) (fun other hother => hitems other (List.mem_cons_of_mem _ hother))
            fuel (by omega)
          have hnext : ∃ after, dumpsItemsWith s (next :: others) ++ 0x5D :: rest =
              dumpsWith s next ++ after := by
            cases others <;> simp [dumpsItemsWith]
          have hskip : skipWhitespace (s.item ++ (dumpsItemsWith s (next :: others) ++ 0x5D :: rest)) =
              dumpsItemsWith s (next :: others) ++ 0x5D :: rest := by
            obtain ⟨after, hafter⟩ := hnext
            rw [skipWhitespace_blank s.blankItem, hafter, skipWhitespace_dumps]
          rw [htext]
          simp [parseItems, rereadItems, hscan,
            skipWhitespace_of_head (by decide : isWhitespace comma = false), hskip, hrest,
            (by decide : comma ≠ 0x5D)]

theorem readsBack_arr {items : List Json} (hitems : ∀ item ∈ items, ReadsBack s item) :
    ReadsBack s (.arr items) := by
  intro rest _ fuel hfuel
  have hlength : (dumpsWith s (.arr items)).length = (dumpsItemsWith s items).length + 2 := by
    simp [dumpsWith]
  obtain ⟨fuel, rfl⟩ := fuel_succ hfuel (by omega)
  have htext : dumpsWith s (.arr items) ++ rest = 0x5B :: (dumpsItemsWith s items ++ 0x5D :: rest) := by
    simp [dumpsWith]
  rw [htext, scanOnce, if_neg (by decide), if_pos rfl]
  cases items with
  | nil =>
      rw [dumpsItemsWith, List.nil_append, skipWhitespace_of_head (by decide)]
      rfl
  | cons item others =>
      have hparse := parseItems_dumpsItems (List.cons_ne_nil item others) hitems rest fuel (by omega)
      obtain ⟨c, tail, hhead, hblank, hbracket⟩ := dumps_head s item
      have hopen : ∃ tail, dumpsItemsWith s (item :: others) ++ 0x5D :: rest = c :: tail := by
        cases others <;> simp [dumpsItemsWith, hhead]
      obtain ⟨tail, hopen⟩ := hopen
      rw [hopen] at hparse ⊢
      rw [skipWhitespace_of_head hblank]
      split
      · rename_i heq
        cases heq
        exact absurd rfl hbracket
      · rw [hparse]
        rfl

-- The fields of an object read back to the closing brace.
theorem parseFields_dumpsFields {fields : Fields} (hne : fields ≠ [])
    (hfields : ∀ field ∈ fields, ReadsBack s field.2) (rest : Str) (fuel : Nat)
    (hfuel : (dumpsFieldsWith s fields).length < fuel) :
    parseFields fuel (dumpsFieldsWith s fields ++ 0x7D :: rest) = some (rereadFields fields, rest) := by
  induction fields generalizing fuel with
  | nil => exact absurd rfl hne
  | cons field others ih =>
      obtain ⟨key, value⟩ := field
      obtain ⟨fuel, rfl⟩ := fuel_succ (Nat.succ_le_of_lt hfuel) (Nat.succ_pos _)
      have hread : ReadsBack s value := hfields (key, value) List.mem_cons_self
      have hskip (after : Str) : skipWhitespace (s.key ++ (dumpsWith s value ++ after)) =
          dumpsWith s value ++ after := by
        rw [skipWhitespace_blank s.blankKey, skipWhitespace_dumps]
      have hcolon : isWhitespace colon = false := by decide
      cases others with
      | nil =>
          have htext : dumpsFieldsWith s [(key, value)] ++ 0x7D :: rest =
              encodeString key ++ (colon :: (s.key ++ (dumpsWith s value ++ 0x7D :: rest))) := by
            simp [dumpsFieldsWith]
          have hend : EndsNumber (0x7D :: rest) :=
            endsNumber_cons (by decide) (by decide) (by decide) (by decide) rest
          have hscan := hread _ hend fuel (by simp [dumpsFieldsWith] at hfuel; omega)
          obtain ⟨tail, hopen, hstring⟩ :=
            scanString_encodeString key (colon :: (s.key ++ (dumpsWith s value ++ 0x7D :: rest)))
          rw [htext, hopen]
          simp [parseFields, rereadFields, hstring, skipWhitespace_of_head hcolon, hskip, hscan,
            skipWhitespace_of_head (by decide : isWhitespace 0x7D = false)]
      | cons next others =>
          have htext : dumpsFieldsWith s ((key, value) :: next :: others) ++ 0x7D :: rest =
              encodeString key ++ (colon :: (s.key ++ (dumpsWith s value ++
                (comma :: (s.item ++ (dumpsFieldsWith s (next :: others) ++ 0x7D :: rest)))))) := by
            simp [dumpsFieldsWith]
          have hlength : (encodeString key).length + 1 + (dumpsWith s value).length + 1 +
              (dumpsFieldsWith s (next :: others)).length ≤
                (dumpsFieldsWith s ((key, value) :: next :: others)).length := by
            simp [dumpsFieldsWith]
            omega
          have hend : EndsNumber
              (comma :: (s.item ++ (dumpsFieldsWith s (next :: others) ++ 0x7D :: rest))) :=
            endsNumber_cons (by decide) (by decide) (by decide) (by decide) _
          have hscan := hread _ hend fuel (by omega)
          have hrest := ih (by simp) (fun other hother => hfields other (List.mem_cons_of_mem _ hother))
            fuel (by omega)
          have hnext : ∃ tail, dumpsFieldsWith s (next :: others) = CodePoint.quotation :: tail := by
            cases others <;> simp [dumpsFieldsWith, encodeString]
          have hquote : isWhitespace CodePoint.quotation = false := by decide
          have hskipNext : skipWhitespace (s.item ++ (dumpsFieldsWith s (next :: others) ++ 0x7D :: rest)) =
              dumpsFieldsWith s (next :: others) ++ 0x7D :: rest := by
            obtain ⟨after, hafter⟩ := hnext
            rw [skipWhitespace_blank s.blankItem, hafter]
            exact skipWhitespace_of_head hquote _
          obtain ⟨tail, hopen, hstring⟩ := scanString_encodeString key
            (colon :: (s.key ++ (dumpsWith s value ++
              (comma :: (s.item ++ (dumpsFieldsWith s (next :: others) ++ 0x7D :: rest))))))
          rw [htext, hopen]
          simp [parseFields, rereadFields, hstring, skipWhitespace_of_head hcolon, hskip, hscan,
            skipWhitespace_of_head (by decide : isWhitespace comma = false), hskipNext, hrest,
            (by decide : comma ≠ 0x7D)]

theorem readsBack_obj {fields : Fields} (hfields : ∀ field ∈ fields, ReadsBack s field.2) :
    ReadsBack s (.obj fields) := by
  intro rest _ fuel hfuel
  have hlength : (dumpsWith s (.obj fields)).length = (dumpsFieldsWith s fields).length + 2 := by
    simp [dumpsWith]
  obtain ⟨fuel, rfl⟩ := fuel_succ hfuel (by omega)
  have htext : dumpsWith s (.obj fields) ++ rest =
      0x7B :: (dumpsFieldsWith s fields ++ 0x7D :: rest) := by
    simp [dumpsWith]
  rw [htext, scanOnce, if_neg (by decide), if_neg (by decide), if_pos rfl]
  cases fields with
  | nil =>
      rw [dumpsFieldsWith, List.nil_append, skipWhitespace_of_head (by decide)]
      rfl
  | cons field others =>
      have hparse := parseFields_dumpsFields (List.cons_ne_nil field others) hfields rest fuel (by omega)
      have hopen : ∃ tail, dumpsFieldsWith s (field :: others) ++ 0x7D :: rest =
          CodePoint.quotation :: tail := by
        cases others <;> simp [dumpsFieldsWith, encodeString]
      obtain ⟨tail, hopen⟩ := hopen
      rw [hopen] at hparse ⊢
      rw [skipWhitespace_of_head (by decide)]
      split
      · rename_i heq
        exact absurd (List.cons.inj heq).1 (by decide)
      · rw [hparse]
        rfl

theorem readsBack (j : Json) : ReadsBack s j := by
  induction j using Json.induct with
  | null => exact readsBack_null
  | bool b => exact readsBack_bool b
  | int n => exact readsBack_int n
  | float x => exact readsBack_float x
  | str text => exact readsBack_str text
  | arr items ih => exact readsBack_arr ih
  | obj fields ih => exact readsBack_obj ih

-- Everything that is written can be read.
theorem loads_dumpsWith (s : Separators) (j : Json) : loads (dumpsWith s j) = some j.reread := by
  have hend : EndsNumber [] := by
    rintro c tail heq
    cases heq
  have hscan := readsBack (s := s) j [] hend (dumpsWith s j).length le_rfl
  have hskip := skipWhitespace_dumps (s := s) j []
  rw [List.append_nil] at hscan hskip
  unfold loads
  rw [hskip, hscan]
  rfl

-- What is written is read back.
theorem loads_dumps {j : Json} (h : j.WellFormed) : loads (dumps j) = some j := by
  rw [dumps_eq, loads_dumpsWith, reread_of_wellFormed h]

end Text

end Values

end Json

end Benzene.Data
