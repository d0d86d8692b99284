import Benzene.Data.Json

namespace Benzene.Data.Json

section Encode

-- The escapes that have a letter of their own.
def shortEscapes : List (CodePoint × CodePoint) :=
  [(CodePoint.quotation, CodePoint.quotation), (CodePoint.backslash, CodePoint.backslash),
    (0x0A, CodePoint.ofChar 'n'), (0x0D, CodePoint.ofChar 'r'), (0x09, CodePoint.ofChar 't'),
    (0x0C, CodePoint.ofChar 'f'), (0x08, CodePoint.ofChar 'b')]

def unicodeEscape (unit : Nat) : Str :=
  CodePoint.backslash :: CodePoint.ofChar 'u' :: Str.hexFixed 4 unit

def escapeChar (c : CodePoint) : Str :=
  match Entries.get? c shortEscapes with
  | some letter => [CodePoint.backslash, letter]
  | none =>
      if 0x20 ≤ c.val ∧ c.val < 0x7F then [c] else (Str.utf16Char c).flatMap unicodeEscape

def encodeString (text : Str) : Str :=
  CodePoint.quotation :: text.flatMap escapeChar ++ [CodePoint.quotation]

def encodeFloat : PyFloat → Str
  | .finite d => PyFloat.reprDecimal (PyFloat.shortest d)
  | .infinity negative => if negative then "-Infinity" else "Infinity"
  | .nan => "NaN"

def comma : CodePoint := CodePoint.ofChar ','

def colon : CodePoint := CodePoint.ofChar ':'

def isWhitespace (c : CodePoint) : Bool := c.val = 0x20 || c.val = 9 || c.val = 10 || c.val = 13

-- The blanks after a comma and after a colon.
structure Separators where
  item : Str
  key : Str
  blankItem : ∀ c ∈ item, isWhitespace c = true
  blankKey : ∀ c ∈ key, isWhitespace c = true

def Separators.compact : Separators := ⟨[], [], by simp, by simp⟩

-- What `json.dumps` writes when it is told nothing.
def Separators.spaced : Separators :=
  ⟨[0x20], [0x20], by simp [isWhitespace], by simp [isWhitespace]⟩

mutual

def dumpsWith (s : Separators) : Json → Str
  | .null => "null"
  | .bool b => if b then "true" else "false"
  | .int n => Str.ofInt n
  | .float x => encodeFloat x
  | .str text => encodeString text
  | .arr items => 0x5B :: dumpsItemsWith s items ++ [0x5D]
  | .obj fields => 0x7B :: dumpsFieldsWith s fields ++ [0x7D]

def dumpsItemsWith (s : Separators) : List Json → Str
  | [] => []
  | [item] => dumpsWith s item
  | item :: rest => dumpsWith s item ++ comma :: (s.item ++ dumpsItemsWith s rest)

def dumpsFieldsWith (s : Separators) : Fields → Str
  | [] => []
  | [(key, value)] => encodeString key ++ colon :: (s.key ++ dumpsWith s value)
  | (key, value) :: rest =>
      encodeString key ++ colon :: (s.key ++ dumpsWith s value) ++
        comma :: (s.item ++ dumpsFieldsWith s rest)

end

mutual

-- `json.dumps(x, separators=(",", ":"))`.
def dumps : Json → Str
  | .null => "null"
  | .bool b => if b then "true" else "false"
  | .int n => Str.ofInt n
  | .float x => encodeFloat x
  | .str s => encodeString s
  | .arr items => 0x5B :: dumpsItems items ++ [0x5D]
  | .obj fields => 0x7B :: dumpsFields fields ++ [0x7D]

def dumpsItems : List Json → Str
  | [] => []
  | [item] => dumps item
  | item :: rest => dumps item ++ comma :: dumpsItems rest

def dumpsFields : Fields → Str
  | [] => []
  | [(key, value)] => encodeString key ++ colon :: dumps value
  | (key, value) :: rest => encodeString key ++ colon :: dumps value ++ comma :: dumpsFields rest

end

theorem dumps_eq (j : Json) : dumps j = dumpsWith .compact j := by
  induction j using Json.induct with
  | arr items ih =>
      have hitems : dumpsItems items = dumpsItemsWith .compact items := by
        induction items with
        | nil => rfl
        | cons item rest ihrest =>
            have hrest := ihrest fun other hother => ih other (List.mem_cons_of_mem _ hother)
            cases rest with
            | nil => exact ih item List.mem_cons_self
            | cons next rest =>
                rw [dumpsItems, dumpsItemsWith, ih item List.mem_cons_self, hrest]
                · rfl
                · simp
                · simp
      rw [dumps, dumpsWith, hitems]
  | obj fields ih =>
      have hfields : dumpsFields fields = dumpsFieldsWith .compact fields := by
        induction fields with
        | nil => rfl
        | cons field rest ihrest =>
            have hrest := ihrest fun other hother => ih other (List.mem_cons_of_mem _ hother)
            have hvalue := ih field List.mem_cons_self
            cases rest with
            | nil => rw [dumpsFields, dumpsFieldsWith, hvalue]; rfl
            | cons next rest =>
                rw [dumpsFields, dumpsFieldsWith, hvalue, hrest]
                · rfl
                · simp
                · simp
      rw [dumps, dumpsWith, hfields]
  | _ => rfl

-- `ensure_ascii=False`: only quotes, backslashes and controls are escaped.
def escapeRawChar (c : CodePoint) : Str :=
  match Entries.get? c shortEscapes with
  | some letter => [CodePoint.backslash, letter]
  | none => if c.val < 0x20 then unicodeEscape c.val else [c]

def encodeRawString (text : Str) : Str :=
  CodePoint.quotation :: text.flatMap escapeRawChar ++ [CodePoint.quotation]

mutual

-- `json.dumps(x, ensure_ascii=False)`.
def dumpsRaw : Json → Str
  | .null => "null"
  | .bool b => if b then "true" else "false"
  | .int n => Str.ofInt n
  | .float x => encodeFloat x
  | .str text => encodeRawString text
  | .arr items => 0x5B :: dumpsRawItems items ++ [0x5D]
  | .obj fields => 0x7B :: dumpsRawFields fields ++ [0x7D]

def dumpsRawItems : List Json → Str
  | [] => []
  | [item] => dumpsRaw item
  | item :: rest => dumpsRaw item ++ (", " : Str) ++ dumpsRawItems rest

def dumpsRawFields : Fields → Str
  | [] => []
  | [(key, value)] => encodeRawString key ++ (": " : Str) ++ dumpsRaw value
  | (key, value) :: rest =>
      encodeRawString key ++ (": " : Str) ++ dumpsRaw value ++ (", " : Str) ++ dumpsRawFields rest

end

end Encode

section Strings

def hexValue (c : CodePoint) : Option Nat :=
  if 0x30 ≤ c.val ∧ c.val ≤ 0x39 then some (c.val - 0x30)
  else if 0x61 ≤ c.val ∧ c.val ≤ 0x66 then some (c.val - 0x57)
  else if 0x41 ≤ c.val ∧ c.val ≤ 0x46 then some (c.val - 0x37)
  else none

-- Four hexadecimal digits.
def readHex : Str → Option (Nat × Str)
  | a :: b :: c :: d :: rest => do
      let a ← hexValue a
      let b ← hexValue b
      let c ← hexValue c
      let d ← hexValue d
      return (a * 0x1000 + b * 0x100 + c * 0x10 + d, rest)
  | _ => none

def codePoint (n : Nat) : CodePoint := ⟨n % 0x110000, Nat.mod_lt _ (by decide)⟩

def isHighUnit (unit : Nat) : Bool := 0xD800 ≤ unit && unit ≤ 0xDBFF

def isLowUnit (unit : Nat) : Bool := 0xDC00 ≤ unit && unit ≤ 0xDFFF

-- The second half of a surrogate pair, where the text goes on with one.
def readLowUnit : Str → Option (Option (Nat × Str))
  | b :: u :: rest =>
      if b = CodePoint.backslash ∧ u = CodePoint.ofChar 'u' then do
        let (unit, rest) ← readHex rest
        return if isLowUnit unit then some (unit, rest) else none
      else some none
  | _ => some none

-- A `\u` escape, after the `u`: two halves of a pair are one code point.
def readUnicodeEscape (text : Str) : Option (CodePoint × Str) := do
  let (unit, rest) ← readHex text
  if isHighUnit unit then
    match ← readLowUnit rest with
    | some (low, rest) =>
        return (codePoint (0x10000 + (unit - 0xD800) * 0x400 + (low - 0xDC00)), rest)
    | none => return (codePoint unit, rest)
  else return (codePoint unit, rest)

def shortUnescapes : List (CodePoint × CodePoint) :=
  shortEscapes.map Prod.swap ++ [(CodePoint.ofChar '/', CodePoint.ofChar '/')]

-- What follows a backslash.
def readEscape : Str → Option (CodePoint × Str)
  | [] => none
  | c :: rest =>
      if c = CodePoint.ofChar 'u' then readUnicodeEscape rest
      else (Entries.get? c shortUnescapes).map fun d => (d, rest)

-- A string after its opening quotation mark. A control character is refused.
def scanString : Nat → Str → Option (Str × Str)
  | 0, _ => none
  | _ + 1, [] => none
  | fuel + 1, c :: rest =>
      if c = CodePoint.quotation then some ([], rest)
      else if c = CodePoint.backslash then do
        let (d, rest) ← readEscape rest
        let (text, rest) ← scanString fuel rest
        return (d :: text, rest)
      else if c.val < 0x20 then none
      else do
        let (text, rest) ← scanString fuel rest
        return (c :: text, rest)

end Strings

section Numbers

def isDigit (c : CodePoint) : Bool := 0x30 ≤ c.val && c.val ≤ 0x39

def readNat (digits : Str) : Nat := digits.foldl (fun n c => n * 10 + (c.val - 0x30)) 0

def minus : CodePoint := CodePoint.ofChar '-'

def takeMinus : Str → Bool × Str
  | c :: rest => if c = minus then (true, rest) else (false, c :: rest)
  | [] => (false, [])

-- `0|[1-9][0-9]*`.
def integerPart : Str → Option (Str × Str)
  | c :: rest =>
      if c = Str.digit 0 then some ([c], rest)
      else if isDigit c then some (c :: rest.takeWhile isDigit, rest.dropWhile isDigit)
      else none
  | [] => none

-- `\.[0-9]+`.
def fractionPart : Str → Option (Str × Str)
  | c :: rest =>
      if c = CodePoint.ofChar '.' ∧ rest.takeWhile isDigit ≠ [] then
        some (rest.takeWhile isDigit, rest.dropWhile isDigit)
      else none
  | [] => none

-- `[-+]?[0-9]+`.
def signedDigits (text : Str) : Option (Int × Str) :=
  let (negative, text) := takeMinus text
  let text := if !negative ∧ text.head? = some (CodePoint.ofChar '+') then text.tail else text
  if text.takeWhile isDigit = [] then none
  else
    let n : Int := readNat (text.takeWhile isDigit)
    some (if negative then -n else n, text.dropWhile isDigit)

-- `[eE][-+]?[0-9]+`.
def exponentPart : Str → Option (Int × Str)
  | c :: rest =>
      if c = CodePoint.ofChar 'e' ∨ c = CodePoint.ofChar 'E' then signedDigits rest else none
  | [] => none

def floatOf (negative : Bool) (digits : Str) (exponent : Int) : Json :=
  let n : Int := readNat digits
  .float (PyFloat.ofDecimal (Decimal.ofParts (if negative then -n else n) exponent))

-- A number is a float when it has a fraction or an exponent.
def matchNumber (text : Str) : Option (Json × Str) := do
  let (negative, text) := takeMinus text
  let (integer, text) ← integerPart text
  match fractionPart text with
  | some (fraction, text) =>
      let (exponent, text) := (exponentPart text).getD (0, text)
      return (floatOf negative (integer ++ fraction) (exponent - fraction.length), text)
  | none =>
      match exponentPart text with
      | some (exponent, text) => return (floatOf negative integer exponent, text)
      | none =>
          let n : Int := readNat integer
          return (.int (if negative then -n else n), text)

end Numbers

section Decode

def skipWhitespace (text : Str) : Str := text.dropWhile isWhitespace

-- The words of JSON, and the three that Python adds.
def words : List (Str × Json) :=
  [("null", .null), ("true", .bool true), ("false", .bool false), ("NaN", .float .nan),
    ("Infinity", .float (.infinity false)), ("-Infinity", .float (.infinity true))]

def matchWord (text : Str) : Option (Json × Str) :=
  words.findSome? fun word => (Str.stripPrefix? word.1 text).map fun rest => (word.2, rest)

mutual

-- One value at the head of the text.
def scanOnce : Nat → Str → Option (Json × Str)
  | 0, _ => none
  | _ + 1, [] => none
  | fuel + 1, c :: rest =>
      if c = CodePoint.quotation then
        (scanString (rest.length + 1) rest).map fun scanned => (.str scanned.1, scanned.2)
      else if c = 0x5B then
        match skipWhitespace rest with
        | 0x5D :: rest => some (.arr [], rest)
        | rest => (parseItems fuel rest).map fun parsed => (.arr parsed.1, parsed.2)
      else if c = 0x7B then
        match skipWhitespace rest with
        | 0x7D :: rest => some (.obj [], rest)
        | rest => (parseFields fuel rest).map fun parsed =>
            (.obj (Entries.update [] parsed.1), parsed.2)
      else (matchNumber (c :: rest)).or (matchWord (c :: rest))

-- The items of an array, to its closing bracket.
def parseItems : Nat → Str → Option (List Json × Str)
  | 0, _ => none
  | fuel + 1, text => do
      let (item, rest) ← scanOnce fuel text
      match skipWhitespace rest with
      | [] => none
      | c :: rest =>
          if c = 0x5D then return ([item], rest)
          else if c = comma then
            let (items, rest) ← parseItems fuel (skipWhitespace rest)
            return (item :: items, rest)
          else none

-- The fields of an object, to its closing brace.
def parseFields : Nat → Str → Option (Fields × Str)
  | 0, _ => none
  | _ + 1, [] => none
  | fuel + 1, c :: rest => do
      if c ≠ CodePoint.quotation then none
      let (key, rest) ← scanString (rest.length + 1) rest
      let rest ← (skipWhitespace rest).head?.bind fun c =>
        if c = colon then some (skipWhitespace rest).tail else none
      let (value, rest) ← scanOnce fuel (skipWhitespace rest)
      match skipWhitespace rest with
      | [] => none
      | c :: rest =>
          if c = 0x7D then return ([(key, value)], rest)
          else if c = comma then
            let (fields, rest) ← parseFields fuel (skipWhitespace rest)
            return ((key, value) :: fields, rest)
          else none

end

-- `json.loads(text)`, `none` where it raises `JSONDecodeError`.
def loads (text : Str) : Option Json := do
  let (value, rest) ← scanOnce text.length (skipWhitespace text)
  if skipWhitespace rest = [] then return value else none

end Decode

end Benzene.Data.Json
