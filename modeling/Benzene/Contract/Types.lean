import Benzene.Contract.Normalize
import Benzene.Core.Mapping

namespace Benzene.Contract

open Benzene.Data
open Benzene.Core (toCamel)

section Types

inductive Primitive
  | bool
  | int
  | float
  | str
  | bytes
  | datetime
  | date
  | time
  | timedelta
  | uuid
  | decimal
deriving DecidableEq

-- A value with a literal JSON form.
inductive Scalar
  | bool (b : Bool)
  | int (n : Int)
  | str (text : Str)
deriving DecidableEq

def Scalar.toJson : Scalar → Json
  | .bool b => .bool b
  | .int n => .int n
  | .str text => .str text

-- A value among those of `Literal`: an enum member of a `str` or `int` enum comes with
-- its value.
inductive LiteralValue
  | none
  | value (scalar : Scalar)
  | member (scalar : Scalar)
  | plainMember
  | bytes (data : List UInt8)
deriving DecidableEq

abbrev ClassId := Nat

-- What an annotation carries, as far as it is told apart: a pydantic serializer or
-- another object, and its `__name__`.
structure Metadata where
  serializer : Bool
  name : Str
deriving DecidableEq

-- A type without parts. `other` is an object that no rule knows, by its `__name__`.
inductive Atom
  | none
  | any
  | ellipsis
  | typeVar (name : Str)
  | primitive (primitive : Primitive)
  | path (name : Str)
  | literal (values : List LiteralValue)
  | cls (id : ClassId)
  | other (name : Str)
deriving DecidableEq

-- What a type is applied to its arguments; a union by the `__name__` of its origin.
inductive Origin
  | union (name : Str)
  | list
  | tuple
  | set
  | frozenset
  | dict
  | cls (id : ClassId)
deriving DecidableEq

-- A type as `get_origin` and `get_args` take it apart.
inductive PyType
  | atom (atom : Atom)
  | annotated (base : PyType) (metadata : List Metadata)
  | alias (origin : Origin) (args : List PyType)

namespace PyType

mutual

def decEq : (a b : PyType) → Decidable (a = b)
  | .atom a, .atom b => decidable_of_iff (a = b) (by simp)
  | .annotated a ms, .annotated b ns =>
      match decEq a b with
      | isTrue h => decidable_of_iff (ms = ns) (by simp [h])
      | isFalse h => isFalse (by simp [h])
  | .alias o as, .alias p bs =>
      match decEqArgs as bs with
      | isTrue h => decidable_of_iff (o = p) (by simp [h])
      | isFalse h => isFalse (by simp [h])
  | .atom _, .annotated _ _ | .atom _, .alias _ _ | .annotated _ _, .atom _
  | .annotated _ _, .alias _ _ | .alias _ _, .atom _ | .alias _ _, .annotated _ _ => isFalse (by simp)

def decEqArgs : (as bs : List PyType) → Decidable (as = bs)
  | [], [] => isTrue rfl
  | [], _ :: _ => isFalse (by simp)
  | _ :: _, [] => isFalse (by simp)
  | a :: as, b :: bs =>
      match decEq a b, decEqArgs as bs with
      | isTrue h, isTrue h' => isTrue (by simp [h, h'])
      | isFalse h, _ => isFalse (by simp [h])
      | _, isFalse h => isFalse (by simp [h])

end

instance : DecidableEq PyType := decEq

instance : Inhabited PyType := ⟨.atom .any⟩

end PyType

end Types

section Classes

-- An entry of `model_fields`. `serialized` says that a custom serializer writes it.
structure ModelField where
  name : Str
  serializationAlias : Option Str
  aliasName : Option Str
  annotationType : PyType
  exclude : Bool
  excludeIf : Bool
  serialized : Bool

-- An entry of `model_computed_fields`; the return type may not be annotated.
structure ComputedField where
  name : Str
  aliasName : Option Str
  returnType : Option PyType
  excludeIf : Bool
  serialized : Bool

-- What a class is to the derivation; a plain `Enum` is plain. `hints` are what
-- `get_type_hints` returns, and none where it raises; `root` is the annotation of a root model's `root`, if it has that
-- field, and whether a custom serializer writes it.
inductive ClassKind
  | strEnum (values : List Str)
  | intEnum (values : List Int)
  | dataclass (parameters : List Str) (hints : List (Str × PyType)) (fields : List Str)
  | model (fields : List ModelField) (computed : List ComputedField) (serialized : Bool)
  | rootModel (root : Option (PyType × Bool)) (serialized : Bool)
  | plain

-- `parametrized` is a generic model's definition and the arguments it is applied to.
structure ClassDef where
  name : Str
  module : Str
  qualname : Str
  declaredName : Option Str
  parametrized : Option (ClassId × List PyType)
  kind : ClassKind

-- The classes of a program, and `repr` of its generic aliases.
structure Program where
  classes : List ClassDef
  aliasRepr : PyType → Str

variable (program : Program)

namespace Program

def classAt (id : ClassId) : ClassDef :=
  (program.classes[id]?).getD ⟨[], [], [], none, none, .plain⟩

end Program

-- `get_origin(py_type) or py_type`, where that is a class.
def definition : PyType → Option ClassId
  | .atom (.cls id) => some id
  | .alias (.cls id) _ => some id
  | _ => none

def typeArgs : PyType → List PyType
  | .alias _ args => args
  | _ => []

-- A dataclass, a pydantic model with no custom model serializer, or a serializable enum.
def isNamed (pyType : PyType) : Bool :=
  match definition pyType with
  | none => false
  | some id =>
      match (program.classAt id).kind with
      | .strEnum _ => true
      | .intEnum _ => true
      | .dataclass _ _ _ => true
      | .model _ _ serialized => !serialized
      | .rootModel _ _ => false
      | .plain => false

def isStdlibDataclass (pyType : PyType) : Bool :=
  match definition pyType with
  | none => false
  | some id =>
      match (program.classAt id).kind with
      | .dataclass _ _ _ => true
      | _ => false

end Classes

section Names

def Primitive.name : Primitive → Str
  | .bool => "bool"
  | .int => "int"
  | .float => "float"
  | .str => "str"
  | .bytes => "bytes"
  | .datetime => "datetime"
  | .date => "date"
  | .time => "time"
  | .timedelta => "timedelta"
  | .uuid => "UUID"
  | .decimal => "Decimal"

def isNameChar (c : CodePoint) : Bool :=
  (0x41 ≤ c.toNat && c.toNat ≤ 0x5A) || (0x61 ≤ c.toNat && c.toNat ≤ 0x7A) ||
    (0x30 ≤ c.toNat && c.toNat ≤ 0x39) || c ∈ ("._-" : Str)

def validName (name : Str) : Str := name.filter isNameChar

variable [UnicodeData]

def capitalise (name : Str) : Str := Str.upper (name.take 1) ++ name.drop 1

variable (program : Program)

-- `origin.__name__`.
def originName : Origin → Str
  | .union name => name
  | .list => "list"
  | .tuple => "tuple"
  | .set => "set"
  | .frozenset => "frozenset"
  | .dict => "dict"
  | .cls id => (program.classAt id).name

-- `declared_schema_name(definition) or definition.__name__`.
def baseName (id : ClassId) : Str :=
  match (program.classAt id).declaredName with
  | some (c :: rest) => c :: rest
  | _ => (program.classAt id).name

def orSchema (name : Str) : Str := if name = [] then "Schema" else name

section Arguments

variable (className : ClassId → Str)

-- `getattr(arg, "__name__", "")`.
def atomName : Atom → Str
  | .none => "NoneType"
  | .any => "Any"
  | .ellipsis => []
  | .typeVar name => name
  | .primitive primitive => primitive.name
  | .path name => name
  | .literal _ => []
  | .cls id => (program.classAt id).name
  | .other name => name

mutual

def argumentName : PyType → Str
  | .atom (.cls id) =>
      if isNamed program (.atom (.cls id)) then className id else capitalise (program.classAt id).name
  | .atom (.literal _) => "Literal"
  | .atom atom => capitalise (atomName program atom)
  | .annotated base metadata =>
      argumentName base ++ (metadata.flatMap fun item => capitalise item.name) ++ ("Annotated" : Str)
  | .alias (.cls id) args =>
      if isNamed program (.alias (.cls id) args) then orSchema (validName (argumentNames args ++ baseName program id))
      else argumentNames args ++ capitalise (program.classAt id).name
  | .alias origin args => argumentNames args ++ capitalise (originName program origin)

def argumentNames : List PyType → Str
  | [] => []
  | arg :: rest => argumentName arg ++ argumentNames rest

end

end Arguments

-- A parametrized model's arguments were built before it, so there are no more of them
-- inside each other than classes.
def className : Nat → ClassId → Str
  | 0, id => orSchema (validName (baseName program id))
  | depth + 1, id =>
      match (program.classAt id).parametrized with
      | some (origin, args) =>
          orSchema (validName (argumentNames program (className depth) args ++ baseName program origin))
      | none => orSchema (validName (baseName program id))

-- A component's name: the type's own, after its arguments'.
def componentName (pyType : PyType) : Str :=
  match pyType with
  | .atom (.cls id) => className program program.classes.length id
  | .alias (.cls id) args =>
      orSchema (validName (argumentNames program (className program program.classes.length) args ++
        baseName program id))
  | _ => "Schema"

def qualified (pyType : PyType) : Str :=
  match pyType with
  | .atom (.cls id) => (program.classAt id).module ++ ("." : Str) ++ (program.classAt id).qualname
  | _ => program.aliasRepr pyType

end Names

end Benzene.Contract
