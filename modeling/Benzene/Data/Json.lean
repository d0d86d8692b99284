import Benzene.Data.Dict
import Benzene.Data.PyFloat
import Benzene.Data.Unicode

namespace Benzene.Data

-- A decoded JSON value as Python holds it.
inductive Json
  | null
  | bool (value : Bool)
  | int (value : Int)
  | float (value : PyFloat)
  | str (value : Str)
  | arr (items : List Json)
  | obj (fields : List (Str × Json))

-- The members of a JSON object, in order.
abbrev Fields := List (Str × Json)

namespace Json

instance : Inhabited Json := ⟨.null⟩

section Equality

mutual

def decEq : (a b : Json) → Decidable (a = b)
  | .null, .null => isTrue rfl
  | .bool a, .bool b => decidable_of_iff (a = b) (by simp)
  | .int a, .int b => decidable_of_iff (a = b) (by simp)
  | .float a, .float b => decidable_of_iff (a = b) (by simp)
  | .str a, .str b => decidable_of_iff (a = b) (by simp)
  | .arr a, .arr b =>
      match decEqItems a b with
      | isTrue h => isTrue (by simp [h])
      | isFalse h => isFalse (by simp [h])
  | .obj a, .obj b =>
      match decEqFields a b with
      | isTrue h => isTrue (by simp [h])
      | isFalse h => isFalse (by simp [h])
  | .null, .bool _ | .null, .int _ | .null, .float _ | .null, .str _ | .null, .arr _
  | .null, .obj _ | .bool _, .null | .bool _, .int _ | .bool _, .float _ | .bool _, .str _
  | .bool _, .arr _ | .bool _, .obj _ | .int _, .null | .int _, .bool _ | .int _, .float _
  | .int _, .str _ | .int _, .arr _ | .int _, .obj _ | .float _, .null | .float _, .bool _
  | .float _, .int _ | .float _, .str _ | .float _, .arr _ | .float _, .obj _ | .str _, .null
  | .str _, .bool _ | .str _, .int _ | .str _, .float _ | .str _, .arr _ | .str _, .obj _
  | .arr _, .null | .arr _, .bool _ | .arr _, .int _ | .arr _, .float _ | .arr _, .str _
  | .arr _, .obj _ | .obj _, .null | .obj _, .bool _ | .obj _, .int _ | .obj _, .float _
  | .obj _, .str _ | .obj _, .arr _ => isFalse (by simp)

def decEqItems : (a b : List Json) → Decidable (a = b)
  | [], [] => isTrue rfl
  | [], _ :: _ => isFalse (by simp)
  | _ :: _, [] => isFalse (by simp)
  | x :: xs, y :: ys =>
      match decEq x y, decEqItems xs ys with
      | isTrue h, isTrue h' => isTrue (by simp [h, h'])
      | isFalse h, _ => isFalse (by simp [h])
      | _, isFalse h => isFalse (by simp [h])

def decEqFields : (a b : List (Str × Json)) → Decidable (a = b)
  | [], [] => isTrue rfl
  | [], _ :: _ => isFalse (by simp)
  | _ :: _, [] => isFalse (by simp)
  | (k, x) :: xs, (l, y) :: ys =>
      match decEq x y, decEqFields xs ys with
      | isTrue h, isTrue h' =>
          if hk : k = l then isTrue (by simp [hk, h, h']) else isFalse (by simp [hk])
      | isFalse h, _ => isFalse (by simp [h])
      | _, isFalse h => isFalse (by simp [h])

end

instance : DecidableEq Json := decEq

end Equality

section Building

abbrev field (key : Str) (value : Json) : Str × Json := (key, value)

-- A string member that is written only where there is one.
def optionalField (key : Str) (value : Option Str) : Fields :=
  match value with
  | some text => [(key, .str text)]
  | none => []

-- A member that is written only when `present`.
def fieldIf (present : Bool) (key : Str) (value : Json) : Fields :=
  if present then [(key, value)] else []

theorem get?_fieldIf (present : Bool) (key other : Str) (value : Json) :
    Entries.get? other (fieldIf present key value) =
      if present ∧ key = other then some value else none := by
  cases present <;> simp [fieldIf]

theorem get?_optionalField (key other : Str) (value : Option Str) :
    Entries.get? other (optionalField key value) =
      if key = other then value.map .str else none := by
  cases value <;> simp [optionalField]

end Building

section Induction

-- Induction over a value with the hypothesis for every element and every field.
theorem induct {motive : Json → Prop} (null : motive .null) (bool : ∀ b, motive (.bool b))
    (int : ∀ n, motive (.int n)) (float : ∀ x, motive (.float x)) (str : ∀ s, motive (.str s))
    (arr : ∀ items, (∀ item ∈ items, motive item) → motive (.arr items))
    (obj : ∀ fields, (∀ field ∈ fields, motive field.2) → motive (.obj fields)) (j : Json) :
    motive j := by
  exact @Json.rec motive (fun items => ∀ item ∈ items, motive item)
    (fun fields => ∀ field ∈ fields, motive field.2) (fun field => motive field.2)
    null bool int float str arr obj
    (fun _ hm => nomatch hm) (fun _ _ hitem hitems => List.forall_mem_cons.mpr ⟨hitem, hitems⟩)
    (fun _ hm => nomatch hm) (fun _ _ hfield hfields => List.forall_mem_cons.mpr ⟨hfield, hfields⟩)
    (fun _ _ hvalue => hvalue) j

end Induction

section Access

-- `bool(x)`.
def truthy : Json → Bool
  | .null => false
  | .bool b => b
  | .int n => n ≠ 0
  | .float (.finite d) => d.mantissa ≠ 0
  | .float _ => true
  | .str s => s ≠ []
  | .arr items => !items.isEmpty
  | .obj fields => !fields.isEmpty

-- `type(x).__name__`.
def typeName : Json → Str
  | .null => "NoneType"
  | .bool _ => "bool"
  | .int _ => "int"
  | .float _ => "float"
  | .str _ => "str"
  | .arr _ => "list"
  | .obj _ => "dict"

-- `x or y`.
def orElse (x y : Json) : Json := if x.truthy then x else y

-- `fields.get(key)`: an absent key reads as None.
def getField (fields : Fields) (key : Str) : Json :=
  (Entries.get? key fields).getD .null

-- `x.get(key)`, for a value that may not be a dictionary.
def get (x : Json) (key : Str) : Except PyError Json :=
  match x with
  | .obj fields => .ok (getField fields key)
  | _ => .error ⟨.attributeError, []⟩

-- The values `for item in x` yields.
def iter : Json → Except PyError (List Json)
  | .arr items => .ok items
  | .obj fields => .ok (fields.map fun field => .str field.1)
  | .str s => .ok (s.map fun c => .str [c])
  | _ => .error ⟨.typeError, []⟩

-- Whether a dictionary may be asked for `x`.
def hashable : Json → Bool
  | .arr _ => false
  | .obj _ => false
  | _ => true

def isArr : Json → Bool
  | .arr _ => true
  | _ => false

end Access

section Representation

variable [UnicodeData]

mutual

-- `repr(x)`.
def repr : Json → Str
  | .null => "None"
  | .bool b => if b then "True" else "False"
  | .int n => Str.ofInt n
  | .float x => x.repr
  | .str s => Str.repr s
  | .arr items => ("[" : Str) ++ reprItems items ++ ("]" : Str)
  | .obj fields => (0x7B :: reprFields fields) ++ [0x7D]

def reprItems : List Json → Str
  | [] => []
  | [item] => repr item
  | item :: rest => repr item ++ (", " : Str) ++ reprItems rest

def reprFields : Fields → Str
  | [] => []
  | [(key, value)] => Str.repr key ++ (": " : Str) ++ repr value
  | (key, value) :: rest => Str.repr key ++ (": " : Str) ++ repr value ++ (", " : Str) ++ reprFields rest

end

-- `str(x)`.
def text : Json → Str
  | .str s => s
  | x => repr x

end Representation

section Comparison

-- A number's value, for the comparisons that cross `bool`, `int` and `float`.
inductive Numeric
  | value (q : ℚ)
  | infinity (negative : Bool)
  | nan
deriving DecidableEq

def numeric? : Json → Option Numeric
  | .bool b => some (.value (if b then 1 else 0))
  | .int n => some (.value n)
  | .float (.finite d) => some (.value d.toRat)
  | .float (.infinity negative) => some (.infinity negative)
  | .float .nan => some .nan
  | _ => none

def Numeric.lt : Numeric → Numeric → Bool
  | .value p, .value q => p < q
  | .value _, .infinity negative => !negative
  | .infinity negative, .value _ => negative
  | .infinity a, .infinity b => a && !b
  | _, _ => false

mutual

-- `x is y or x == y`, the equality of `in` and of containers. Decoded text has
-- one NaN object.
def same : Json → Json → Bool
  | .null, .null => true
  | .str a, .str b => a = b
  | .arr a, .arr b => sameItems a b
  | .obj a, .obj b => a.length = b.length && sameFields a b
  | .bool a, y => numeric? (.bool a) = numeric? y
  | .int a, y => numeric? (.int a) = numeric? y
  | .float a, y => numeric? (.float a) = numeric? y
  | _, _ => false

def sameItems : List Json → List Json → Bool
  | [], [] => true
  | x :: xs, y :: ys => same x y && sameItems xs ys
  | _, _ => false

def sameFields : Fields → Fields → Bool
  | [], _ => true
  | (k, x) :: rest, fields =>
      (match Entries.get? k fields with
        | some y => same x y
        | none => false) && sameFields rest fields

end

mutual

-- `x < y`. Lists compare at their first difference; other pairs of types raise.
def lt : Json → Json → Except PyError Bool
  | .str a, .str b => .ok (a < b)
  | .arr a, .arr b => ltItems a b
  | .bool a, y => ltNumeric (.bool a) y
  | .int a, y => ltNumeric (.int a) y
  | .float a, y => ltNumeric (.float a) y
  | _, _ => .error ⟨.typeError, []⟩

def ltItems : List Json → List Json → Except PyError Bool
  | _, [] => .ok false
  | [], _ :: _ => .ok true
  | x :: xs, y :: ys => if same x y then ltItems xs ys else lt x y

def ltNumeric (x y : Json) : Except PyError Bool :=
  match numeric? x, numeric? y with
  | some a, some b => .ok (a.lt b)
  | _, _ => .error ⟨.typeError, []⟩

end

-- `min(x, y)` and `max(x, y)` keep the first of two that tie.
def min (x y : Json) : Except PyError Json := do
  return if ← lt y x then y else x

def max (x y : Json) : Except PyError Json := do
  return if ← lt x y then y else x

end Comparison

end Json

end Benzene.Data
