import Benzene.Data.JsonText

namespace Benzene.Core

open Benzene.Data

section Values

-- The standard library's types that are written as one text.
inductive TextType
  | datetime
  | date
  | time
  | uuid
  | path
deriving DecidableEq

-- A Python object, as far as the payload mapping tells objects apart. A text
-- type comes with the text `isoformat` or `str` gives it, a naive datetime read
-- as UTC. `foreign` is an object of any other type.
inductive Value
  | none
  | bool (value : Bool)
  | int (value : Int)
  | float (value : PyFloat)
  | str (value : Str)
  | list (items : List Value)
  | tuple (items : List Value)
  | set (items : List Value)
  | dict (entries : List (Value × Value))
  | dataclass (fields : List (Str × Value))
  | bytes (data : List UInt8)
  | text (type : TextType) (written : Str)
  | timedelta (microseconds : Int)
  | decimal (value : PyFloat)
  | model (dumped : Value)
  | brokenModel (error : PyError)
  | foreign

namespace Value

mutual

-- What `json.loads` builds is a payload too.
def ofJson : Json → Value
  | .null => .none
  | .bool b => .bool b
  | .int n => .int n
  | .float x => .float x
  | .str s => .str s
  | .arr items => .list (ofItems items)
  | .obj fields => .dict (ofFields fields)

def ofItems : List Json → List Value
  | [] => []
  | item :: rest => ofJson item :: ofItems rest

def ofFields : Fields → List (Value × Value)
  | [] => []
  | (key, value) :: rest => (.str key, ofJson value) :: ofFields rest

end

end Value

end Values

section Texts

def splitAt (separator : CodePoint) : Str → List Str
  | [] => [[]]
  | c :: rest =>
      if c = separator then [] :: splitAt separator rest
      else match splitAt separator rest with
        | part :: parts => (c :: part) :: parts
        | [] => [[c]]

def underscore : CodePoint := CodePoint.ofChar '_'

-- `order_id` becomes `orderId`.
def toCamel [UnicodeData] (name : Str) : Str :=
  match splitAt underscore name with
  | head :: tail => head ++ tail.flatMap fun part => Str.upper (part.take 1) ++ part.drop 1
  | [] => []

-- Property names match whatever their case and their underscores.
def normalizeName [UnicodeData] (name : Str) : Str :=
  Str.lower (name.filter fun c => c ≠ underscore)

def base64Digit (n : Nat) : CodePoint :=
  let d := n % 64
  if h : d < 26 then ⟨0x41 + d, by omega⟩
  else if h : d < 52 then ⟨0x61 + (d - 26), by omega⟩
  else if h : d < 62 then ⟨0x30 + (d - 52), by omega⟩
  else if d = 62 then CodePoint.ofChar '+' else CodePoint.ofChar '/'

def base64 : List UInt8 → Str
  | [] => []
  | [a] =>
      [base64Digit (a.toNat / 4), base64Digit (a.toNat % 4 * 16)] ++ ("==" : Str)
  | [a, b] =>
      [base64Digit (a.toNat / 4), base64Digit (a.toNat % 4 * 16 + b.toNat / 16),
        base64Digit (b.toNat % 16 * 4)] ++ ("=" : Str)
  | a :: b :: c :: rest =>
      [base64Digit (a.toNat / 4), base64Digit (a.toNat % 4 * 16 + b.toNat / 16),
        base64Digit (b.toNat % 16 * 4 + c.toNat / 64), base64Digit (c.toNat)] ++ base64 rest

-- The fraction of a second, without its trailing zeros.
def microsText (micros : Nat) : Str :=
  let digits := Str.ofNat micros
  ((List.replicate (6 - digits.length) (Str.digit 0) ++ digits).reverse.dropWhile
    fun c => c = Str.digit 0).reverse

-- ISO 8601 in days, hours, minutes and seconds.
def isoDuration (microseconds : Int) : Str :=
  let micros := microseconds.natAbs
  let days := micros / 86400000000
  let hours := micros / 3600000000 % 24
  let minutes := micros / 60000000 % 60
  let seconds := micros / 1000000 % 60
  let fraction := micros % 1000000
  let part (amount : Nat) (unit : Char) : Str :=
    if amount = 0 then [] else Str.ofNat amount ++ [CodePoint.ofChar unit]
  let clock := part hours 'H' ++ part minutes 'M'
  let clock := clock ++
    if fraction ≠ 0 then Str.ofNat seconds ++ ("." : Str) ++ microsText fraction ++ ("S" : Str)
    else if seconds ≠ 0 ∨ (days = 0 ∧ clock = []) then Str.ofNat seconds ++ ("S" : Str)
    else []
  (if microseconds < 0 then ("-" : Str) else []) ++ ("P" : Str) ++ part days 'D' ++
    if clock = [] then [] else ("T" : Str) ++ clock

end Texts

section Writing

-- An integral decimal is written as an integer.
def decimalNumber : PyFloat → Value
  | .finite d => if 0 ≤ d.exponent then .int (d.mantissa * 10 ^ d.exponent.toNat) else .float (.ofDecimal d)
  | x => .float x

variable [UnicodeData]

mutual

-- A payload as a value that `json.dumps` can write, dataclass fields in camel case.
def toJsonable : Value → Except PyError Value
  | .dataclass fields => do
      return .dict ((Entries.update [] (← toJsonableFields fields)).map fun entry =>
        (.str entry.1, entry.2))
  | .list items => do return .list (← toJsonableItems items)
  | .tuple items => do return .list (← toJsonableItems items)
  | .dict entries => do return .dict (← toJsonableEntries entries)
  | .bytes data => .ok (.str (base64 data))
  | .text _ written => .ok (.str written)
  | .timedelta microseconds => .ok (.str (isoDuration microseconds))
  | .decimal value => .ok (decimalNumber value)
  | .set items => do return .list (← toJsonableItems items)
  | .model dumped => toJsonable dumped
  | .brokenModel error => .error error
  | payload => .ok payload

def toJsonableItems : List Value → Except PyError (List Value)
  | [] => .ok []
  | item :: rest => do return (← toJsonable item) :: (← toJsonableItems rest)

def toJsonableFields : List (Str × Value) → Except PyError (List (Str × Value))
  | [] => .ok []
  | (name, value) :: rest => do
      return (toCamel name, ← toJsonable value) :: (← toJsonableFields rest)

def toJsonableEntries : List (Value × Value) → Except PyError (List (Value × Value))
  | [] => .ok []
  | (key, value) :: rest => do return (key, ← toJsonable value) :: (← toJsonableEntries rest)

end

-- The keys `json.dumps` takes.
def keyText : Value → Except PyError Str
  | .str text => .ok text
  | .none => .ok "null"
  | .bool b => .ok (if b then "true" else "false" : String)
  | .int n => .ok (Str.ofInt n)
  | .float x => .ok (Json.encodeFloat x)
  | _ => .error ⟨.typeError, []⟩

mutual

-- The value as `json.dumps` takes it: an object of no JSON type raises.
def asJson : Value → Except PyError Json
  | .none => .ok .null
  | .bool b => .ok (.bool b)
  | .int n => .ok (.int n)
  | .float x => .ok (.float x)
  | .str text => .ok (.str text)
  | .list items => do return .arr (← asJsonItems items)
  | .tuple items => do return .arr (← asJsonItems items)
  | .dict entries => do return .obj (← asJsonEntries entries)
  | _ => .error ⟨.typeError, []⟩

def asJsonItems : List Value → Except PyError (List Json)
  | [] => .ok []
  | item :: rest => do return (← asJson item) :: (← asJsonItems rest)

def asJsonEntries : List (Value × Value) → Except PyError Fields
  | [] => .ok []
  | (key, value) :: rest => do return (← keyText key, ← asJson value) :: (← asJsonEntries rest)

end

-- `json.dumps(to_jsonable(payload))`.
def dumpPayload (payload : Value) : Except PyError Str := do
  return Json.dumpsWith .spaced (← asJson (← toJsonable payload))

-- A text is taken as encoded already.
def encodeBody : Value → Except PyError Str
  | .str text => .ok text
  | payload => dumpPayload payload

end Writing

section Plain

mutual

theorem asJson_ofJson (json : Json) : asJson (.ofJson json) = .ok json := by
  cases json with
  | arr items =>
      rw [Value.ofJson, asJson, asJson_ofItems items]
      rfl
  | obj fields =>
      rw [Value.ofJson, asJson, asJson_ofFields fields]
      rfl
  | null | bool | int | float | str => rfl

theorem asJson_ofItems (items : List Json) : asJsonItems (Value.ofItems items) = .ok items := by
  cases items with
  | nil => rfl
  | cons item rest =>
      rw [Value.ofItems, asJsonItems, asJson_ofJson item, asJson_ofItems rest]
      rfl

theorem asJson_ofFields (fields : Fields) : asJsonEntries (Value.ofFields fields) = .ok fields := by
  cases fields with
  | nil => rfl
  | cons field rest =>
      obtain ⟨key, value⟩ := field
      rw [Value.ofFields, asJsonEntries, asJson_ofJson value, asJson_ofFields rest]
      rfl

end

variable [UnicodeData]

mutual

theorem toJsonable_ofJson (json : Json) : toJsonable (.ofJson json) = .ok (.ofJson json) := by
  cases json with
  | arr items =>
      rw [Value.ofJson, toJsonable, toJsonable_ofItems items]
      rfl
  | obj fields =>
      rw [Value.ofJson, toJsonable, toJsonable_ofFields fields]
      rfl
  | null | bool | int | float | str =>
      rw [Value.ofJson, toJsonable] <;> simp

theorem toJsonable_ofItems (items : List Json) : toJsonableItems (Value.ofItems items) = .ok (Value.ofItems items) := by
  cases items with
  | nil => rfl
  | cons item rest =>
      rw [Value.ofItems, toJsonableItems, toJsonable_ofJson item, toJsonable_ofItems rest]
      rfl

theorem toJsonable_ofFields (fields : Fields) :
    toJsonableEntries (Value.ofFields fields) = .ok (Value.ofFields fields) := by
  cases fields with
  | nil => rfl
  | cons field rest =>
      obtain ⟨key, value⟩ := field
      rw [Value.ofFields, toJsonableEntries, toJsonable_ofJson value, toJsonable_ofFields rest]
      rfl

end

-- A payload that came as JSON is written as it is.
theorem dumpPayload_ofJson (json : Json) : dumpPayload (.ofJson json) = .ok (Json.dumpsWith .spaced json) := by
  unfold dumpPayload
  rw [toJsonable_ofJson]
  show (asJson (.ofJson json) >>= fun written => _) = _
  rw [asJson_ofJson]
  rfl

end Plain

section Reading

-- A type a handler declares for its requests, objects of which are `τ`s: a
-- dataclass with its field names, or another class.
structure RequestType (τ : Type) where
  name : Str
  isInstance : Json → Bool
  fieldNames : Option (List Str)
  construct : Fields → Except PyError τ
  convert : Json → Except PyError τ

-- What a handler is given: the payload as it was decoded, or an object of its type.
inductive Request (τ : Type)
  | raw (data : Json)
  | typed (value : τ)

variable [UnicodeData] {τ : Type}

-- The members that name a field of the dataclass.
def keywordArguments (fieldNames : List Str) (data : Fields) : Fields :=
  let byNorm := Entries.update [] (data.map fun entry => (normalizeName entry.1, entry.2))
  fieldNames.filterMap fun name => (Entries.get? (normalizeName name) byNorm).map fun value => (name, value)

def toRequest (requestType : Option (RequestType τ)) (data : Json) : Except PyError (Request τ) :=
  match requestType with
  | none => .ok (.raw data)
  | some requestType =>
      if requestType.isInstance data then .ok (.raw data)
      else match data, requestType.fieldNames with
        | .obj fields, some fieldNames =>
            (requestType.construct (keywordArguments fieldNames fields)).map .typed
        | .obj fields, none =>
            match requestType.construct fields with
            | .ok value => .ok (.typed value)
            | .error error =>
                if error.kind = .typeError then (requestType.convert data).map .typed else .error error
        | data, _ => .ok (.raw data)

end Reading

end Benzene.Core
