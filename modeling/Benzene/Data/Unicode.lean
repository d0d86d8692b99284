import Benzene.Data.Text

namespace Benzene.Data

-- What Python reads off the Unicode character database, for text outside
-- ASCII. ASCII text is handled by the definitions below.
class UnicodeData where
  printable : CodePoint → Bool
  decimal : CodePoint → Option (Fin 10)
  space : CodePoint → Bool
  upper : Str → Str
  lower : Str → Str

-- The database of text that is ASCII alone.
@[reducible] def UnicodeData.ascii : UnicodeData where
  printable _ := false
  decimal _ := none
  space _ := false
  upper := id
  lower := id

namespace Str

section Database

variable [UnicodeData]

def isPrintable (c : CodePoint) : Bool :=
  if c.isAscii then 0x20 ≤ c.val && c.val < 0x7F
  else !c.isSurrogate && UnicodeData.printable c

def isSpace (c : CodePoint) : Bool :=
  if c.isAscii then (9 ≤ c.val && c.val ≤ 13) || c.val = 0x20 else UnicodeData.space c

def decimalValue (c : CodePoint) : Option Nat :=
  if c.isAscii then if 0x30 ≤ c.val ∧ c.val ≤ 0x39 then some (c.val - 0x30) else none
  else (UnicodeData.decimal c).map Fin.val

def upperAscii (c : CodePoint) : CodePoint :=
  if h : 0x61 ≤ c.val ∧ c.val ≤ 0x7A then ⟨c.val - 0x20, by omega⟩ else c

def lowerAscii (c : CodePoint) : CodePoint :=
  if h : 0x41 ≤ c.val ∧ c.val ≤ 0x5A then ⟨c.val + 0x20, by omega⟩ else c

-- `text.upper()` and `text.lower()`.
def upper (text : Str) : Str :=
  if text.all CodePoint.isAscii then text.map upperAscii else UnicodeData.upper text

def lower (text : Str) : Str :=
  if text.all CodePoint.isAscii then text.map lowerAscii else UnicodeData.lower text

-- The digits of `int(text)`: single underscores may stand between two of them.
def readDigits (acc : Nat) (afterDigit : Bool) : Str → Option Nat
  | [] => if afterDigit then some acc else none
  | c :: rest =>
      match decimalValue c with
      | some d => readDigits (acc * 10 + d) true rest
      | none =>
          if afterDigit ∧ c = CodePoint.ofChar '_' ∧ rest ≠ [] then readDigits acc false rest
          else none

def strip (text : Str) : Str :=
  ((text.dropWhile isSpace).reverse.dropWhile isSpace).reverse

-- `int(text)`, `none` where it raises `ValueError`.
def toInt? (text : Str) : Option Int :=
  match strip text with
  | [] => none
  | c :: rest =>
      if c = CodePoint.ofChar '-' then (readDigits 0 false rest).map fun n => -(n : Int)
      else if c = CodePoint.ofChar '+' then (readDigits 0 false rest).map fun n => (n : Int)
      else (readDigits 0 false (c :: rest)).map fun n => (n : Int)

def reprChar (quote c : CodePoint) : Str :=
  if c = quote ∨ c = CodePoint.backslash then [CodePoint.backslash, c]
  else if c.val = 9 then "\\t"
  else if c.val = 10 then "\\n"
  else if c.val = 13 then "\\r"
  else if isPrintable c then [c]
  else if c.val < 0x100 then ("\\x" : Str) ++ hexFixed 2 c.val
  else if c.val < 0x10000 then ("\\u" : Str) ++ hexFixed 4 c.val
  else ("\\U" : Str) ++ hexFixed 8 c.val

-- `repr(text)`: double quotes only around text with a single quote and no double one.
def repr (text : Str) : Str :=
  let quote := if CodePoint.apostrophe ∈ text ∧ CodePoint.quotation ∉ text
    then CodePoint.quotation else CodePoint.apostrophe
  quote :: text.flatMap (reprChar quote) ++ [quote]

end Database

end Str

end Benzene.Data
