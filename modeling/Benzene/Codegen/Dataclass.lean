import Benzene.Codegen.Properties
import Benzene.Codegen.PropertyNames

namespace Benzene.Codegen

open Benzene.Data
open Benzene.Core (underscore toCamel normalizeName)

section Classes

-- A field of a dataclass: the property it is generated for, and its value without
-- one, `none` where the default fails.
structure FieldSpec where
  wireName : Str
  default : Option Json

abbrev ClassFields := List (Str × FieldSpec)

def Default.factory : Default → Option Str
  | .list => some "list"
  | .dict => some "dict"
  | _ => Option.none

def Default.value : Default → Json
  | .none => .null
  | .list => .arr []
  | .dict => .obj []
  | .emptyText => .str []
  | .zero => .int 0
  | .zeroFloat => .float (.finite (Decimal.ofParts 0 0))
  | .false => .bool Bool.false

-- `field(default_factory=list)` finds what the class body has under these names by
-- then. What is no function fails when it is called: `field` here, `list` later on.
def evaluate (bound : List Str) (default : Default) : Except PyError (Option Json) :=
  match default.factory with
  | none => .ok (some default.value)
  | some factory =>
      if ("field" : Str) ∈ bound then .error ⟨.typeError, []⟩
      else .ok (if factory ∈ bound then none else some default.value)

def isPrivate (name : Str) : Bool := ("__" : Str).isPrefixOf name && !("__" : Str).isSuffixOf name

variable [IdentifierData]

-- A private name comes with its class's.
def attributeName (cls name : Str) : Str :=
  let name := Str.compiled name
  if isPrivate name then underscore :: cls.dropWhile (fun c => c = underscore) ++ name else name

def runBody (cls : Str) (bound : List Str) : List Field → Except PyError ClassFields
  | [] => .ok []
  | field :: rest =>
      if Str.IsName field.pythonName then do
        let name := attributeName cls field.pythonName
        let default ← evaluate bound field.default
        return (name, ⟨field.wireName, default⟩) :: (← runBody cls (name :: bound) rest)
      else .error ⟨.exception "SyntaxError", []⟩

-- The fields of a component's dataclass: its own take the places of those of its base.
inductive Generated (schemas : Fields) : Str → ClassFields → Prop
  | root {name cls : Str} {schema : Json} {fields : List Field} {own : ClassFields}
      (hget : Entries.get? name schemas = some schema)
      (hsource : buildSchemaSource name schema = .ok (.dataclass cls none fields))
      (hbody : runBody cls [] fields = .ok own) : Generated schemas name (Entries.update [] own)
  | derived {name base cls : Str} {schema : Json} {fields : List Field} {own inherited : ClassFields}
      (hget : Entries.get? name schemas = some schema)
      (hsource : buildSchemaSource name schema = .ok (.dataclass cls (some (className base)) fields))
      (hbase : baseRefName schema = .ok (some base)) (hinherited : Generated schemas base inherited)
      (hbody : runBody cls [] fields = .ok own) : Generated schemas name (Entries.update inherited own)

end Classes

section Objects

-- An instance with these values.
def instanceOf (cls : ClassFields) (values : Str → Json) : Core.Value :=
  Core.FlatDataclass.payload (cls.map fun field => (field.1, values field.1))

def assign (name : Str) : Option Json → Except PyError (Str × Json)
  | some value => .ok (name, value)
  | none => .error ⟨.typeError, []⟩

-- What the class does with keyword arguments.
def construct (cls : ClassFields) (kwargs : Fields) : Except PyError Fields :=
  if kwargs.all fun argument => argument.1 ∈ Entries.keys cls then
    cls.mapM fun field => assign field.1 ((Entries.get? field.1 kwargs).or field.2.default)
  else .error ⟨.typeError, []⟩

def requestType (name : Str) (cls : ClassFields) : Core.RequestType Fields where
  name := name
  isInstance _ := false
  fieldNames := some (Entries.keys cls)
  construct := construct cls
  convert _ := .error ⟨.typeError, []⟩

variable [UnicodeData]

-- Whatever the values, the field's is written under the name.
def WrittenUnder (cls : ClassFields) (field : Str × FieldSpec) (name : Str) : Prop :=
  ∀ values : Str → Json, ∃ written, Core.toJsonable (instanceOf cls values) = .ok (.ofJson (.obj written)) ∧
    Entries.get? name written = some (values field.1)

-- Of an object of such properties, the field has the value of this one.
def PopulatedFrom (component : Str) (cls : ClassFields) (property : Str → Prop) (field : Str × FieldSpec) (name : Str) :
    Prop :=
  ∀ data : Fields, (Entries.keys data).Nodup → (∀ key ∈ Entries.keys data, property key) →
    ∃ values, Core.toRequest (some (requestType component cls)) (.obj data) = .ok (.typed values) ∧
      Entries.get? field.1 values = (Entries.get? name data).or field.2.default

variable [IdentifierData]

-- The component's dataclass has one field for each property of the schema.
def SpeaksContract (schemas : Fields) (component : Str) (schema : Fields) : Prop :=
  ∃ cls, Generated schemas component cls ∧ ∀ name, HasProperty schemas schema name →
    ∃! field, field ∈ cls ∧ field.2.wireName = name ∧ WrittenUnder cls field name ∧
      PopulatedFrom component cls (HasProperty schemas schema) field name

end Objects

section Conditions

-- The names of the properties before one.
def earlier (own : Fields) (name : Str) : List Str := Entries.keys (own.takeWhile fun property => property.1 ≠ name)

variable [IdentifierData]

def defaultOf (own : Fields) (name : Str) : Option Default :=
  (Entries.get? name own).map fun schema => defaultFor (getTypeName schema)

-- Before a list or a dictionary there is no property called `field`.
def BodyRuns (own : Fields) : Prop :=
  ∀ name default, defaultOf own name = some default → default.factory ≠ none → ("field" : Str) ∉ earlier own name

-- Before a list there is none called `list`, before a dictionary none called `dict`.
def Unshadowed (own : Fields) (name : Str) : Prop :=
  ∀ default factory, defaultOf own name = some default → default.factory = some factory → factory ∉ earlier own name

-- The class that has the property: the schema's own, or the nearest base's.
inductive Stated (schemas : Fields) : Fields → Str → Fields → Prop
  | here {schema : Fields} {name : Str} (h : name ∈ Entries.keys (ownOf schema)) : Stated schemas schema name schema
  | above {schema target ancestor : Fields} {base name : Str} (hown : name ∉ Entries.keys (ownOf schema))
      (hbase : baseOf schema = some base) (htarget : Entries.get? base schemas = some (.obj target))
      (h : Stated schemas target name ancestor) : Stated schemas schema name ancestor

inductive BodiesRun (schemas : Fields) : Fields → Prop
  | root {schema : Fields} (hbase : baseOf schema = none) (hbody : BodyRuns (ownOf schema)) : BodiesRun schemas schema
  | derived {schema target : Fields} {base : Str} (hbase : baseOf schema = some base)
      (htarget : Entries.get? base schemas = some (.obj target)) (hrest : BodiesRun schemas target)
      (hbody : BodyRuns (ownOf schema)) : BodiesRun schemas schema

variable [UnicodeData]

-- A name with a letter or a digit is a plain word. Any other one is a name that the
-- compiler keeps, the payload mapping writes and a request is read by.
def PlainName (name : Str) : Prop :=
  if spelled name = [] then
    Str.IsName (ensureIdentifier name) ∧ isPrivate (Str.compiled (ensureIdentifier name)) = false ∧
      toCamel (Str.compiled (ensureIdentifier name)) = name ∧
      normalizeName (Str.compiled (ensureIdentifier name)) = normalizeName name
  else PlainWord name

-- Plain names with different letters in lower case, each a property of a class whose
-- body runs.
structure PlainSchema (schemas schema : Fields) : Prop where
  plain : ∀ name, HasProperty schemas schema name → PlainName name
  apart : ∀ a b, HasProperty schemas schema a → HasProperty schemas schema b → normalizeName a = normalizeName b → a = b
  stated : ∀ name, HasProperty schemas schema name →
    ∃ ancestor, Stated schemas schema name ancestor ∧ Unshadowed (ownOf ancestor) name
  bodies : BodiesRun schemas schema

end Conditions

end Benzene.Codegen
