import Benzene.Contract.Projection
import Benzene.Contract.Types

namespace Benzene.Contract.Derivation

open Benzene.Data
open Benzene.Core (toCamel)
open Benzene.Mesh (reservedTopicPrefix)

section Schemas

def typed (name : Str) : Fields := [Json.field "type" (.str name)]

def formatted (name format : Str) : Fields := [Json.field "type" (.str name), Json.field "format" (.str format)]

-- `_PRIMITIVES`.
def primitiveSchema : Primitive → Fields
  | .bool => typed "boolean"
  | .int => typed "integer"
  | .float => formatted "number" "double"
  | .str => typed "string"
  | .bytes => formatted "string" "byte"
  | .datetime => formatted "string" "date-time"
  | .date => formatted "string" "date"
  | .time => typed "string"
  | .timedelta => formatted "string" "duration"
  | .uuid => formatted "string" "uuid"
  | .decimal => typed "number"

-- A literal value as it is written: an enum member stands for its value.
def writtenValue : LiteralValue → LiteralValue
  | .member scalar => .value scalar
  | value => value

def literalType : LiteralValue → Option Str
  | .value (.bool _) => some "boolean"
  | .value (.int _) => some "integer"
  | .value (.str _) => some "string"
  | _ => none

def literalJson : LiteralValue → Option Json
  | .value scalar => some scalar.toJson
  | _ => none

-- The values' one JSON type, with the values as written. Values of more than one type,
-- or of a type with no literal form, derive to the open schema.
def literalSchema (values : List LiteralValue) : Fields :=
  if .plainMember ∈ values then []
  else
    let written := distinct ((values.filter fun value => value ≠ .none).map writtenValue)
    match distinct (written.map literalType) with
    | [some name] =>
        [Json.field "type" (.str name), Json.field "enum" (.arr (written.filterMap literalJson))] ++
          Json.fieldIf (.none ∈ values) "nullable" (.bool true)
    | _ => []

def enumSchema (name : Str) (values : List Scalar) : Fields :=
  [Json.field "type" (.str name), Json.field "enum" (.arr (values.map Scalar.toJson))]

def arraySchema (item : Fields) : Fields := [Json.field "type" (.str "array"), Json.field "items" (.obj item)]

def mapSchema (value : Fields) : Fields :=
  [Json.field "type" (.str "object"), Json.field "additionalProperties" (.obj value)]

def reference (token : Str) : Fields := [Json.field "$ref" (.str (schemaRefPrefix ++ token))]

-- The two nullable forms: a hoisted type is wrapped, anything else gains `nullable`.
def nullable (schema : Fields) (refType : Option Str) : Fields :=
  if schema = [] then schema
  else match refType with
    | some name =>
        if (Entries.get? ("$ref" : Str) schema).isSome then
          [Json.field "type" (.str name), Json.field "nullable" (.bool true), Json.field "allOf" (.arr [.obj schema])]
        else Entries.set "nullable" (.bool true) schema
    | none => Entries.set "nullable" (.bool true) schema

def recordSchema (properties : Fields) (required : List Str) : Fields :=
  [Json.field "type" (.str "object"), Json.field "properties" (.obj (Entries.update [] properties))] ++
    Json.fieldIf (required ≠ []) "required" (.arr (required.map .str))

end Schemas

section Rules

abbrev Bindings := List (Str × PyType)

-- What is live where a type is derived: the root models that are being expanded,
-- whether a model's dump writes the position, and what the type variables stand for.
structure Context where
  roots : List ClassId
  inModel : Bool
  bindings : Bindings

variable (program : Program)

def resolveVar (bindings : Bindings) : PyType → PyType
  | .atom (.typeVar name) => (Entries.get? name bindings).getD (.atom .any)
  | pyType => pyType

-- `Page[T]` inside a generic definition, with `T` bound, becomes `Page[Order]`.
def resolveAlias (bindings : Bindings) : PyType → PyType
  | .alias origin args =>
      if args = [] ∨ bindings = [] then .alias origin args
      else .alias origin (args.map fun arg =>
        match arg with
        | .atom (.typeVar name) => (Entries.get? name bindings).getD arg
        | _ => arg)
  | pyType => pyType

-- The JSON type of a hoisted type, for its nullable wrapper.
def refType (bindings : Bindings) (pyType : PyType) : Option Str :=
  let pyType := resolveVar bindings pyType
  if isNamed program pyType then
    match (definition pyType).map fun id => (program.classAt id).kind with
    | some (.strEnum _) => some "string"
    | some (.intEnum _) => some "integer"
    | _ => some "object"
  else none

-- What a type's schema is to that of the type it is derived from.
inductive Wrap
  | same
  | array
  | map
  | nullable (refType : Option Str)
deriving DecidableEq

def Wrap.apply : Wrap → Fields → Fields
  | .same, schema => schema
  | .array, schema => arraySchema schema
  | .map, schema => mapSchema schema
  | .nullable refType, schema => Derivation.nullable schema refType

-- What becomes of a type: a schema as it stands, one from that of another type, or a
-- reference to its component.
inductive Rule
  | schema (schema : Fields)
  | within (context : Context) (pyType : PyType) (wrap : Wrap)
  | component (key : PyType)

-- A root model marshals as its root value. One that contains itself again derives to the
-- open schema at the repetition.
def rootModelRule (context : Context) (id : ClassId) : Option (PyType × Bool) → Bool → Rule
  | some (inner, false), false =>
      if id ∈ context.roots then .schema []
      else .within ⟨id :: context.roots, true, []⟩ inner .same
  | _, _ => .schema []

def classRule (context : Context) (pyType : PyType) : Rule :=
  if context.inModel && isStdlibDataclass program pyType then .schema []
  else if isNamed program pyType then .component (resolveAlias context.bindings pyType)
  else .schema []

def arrayRule (context : Context) (args : List PyType) : Rule :=
  match args.filter fun arg => arg ≠ .atom .ellipsis with
  | item :: _ => .within context item .array
  | [] => .schema (arraySchema [])

-- The branches of `_derive`.
def rule (context : Context) (pyType : PyType) : Rule :=
  match resolveVar context.bindings pyType with
  | .annotated base metadata =>
      if metadata.any fun item => item.serializer then .schema []
      else .within context base .same
  | .alias (.union _) args =>
      match args.filter fun arg => arg ≠ .atom .none with
      | [arg] =>
          .within context arg
            (if args.length = 1 then .same else .nullable (refType program context.bindings arg))
      | _ => .schema []
  | .alias .list args => arrayRule context args
  | .alias .tuple args => arrayRule context args
  | .alias .set args => arrayRule context args
  | .alias .frozenset args => arrayRule context args
  | .alias .dict args =>
      match args with
      | [_, value] => .within context value .map
      | _ => .schema (mapSchema [])
  | .alias (.cls id) args => classRule program context (.alias (.cls id) args)
  | .atom (.literal values) => .schema (literalSchema values)
  | .atom (.primitive primitive) => .schema (primitiveSchema primitive)
  | .atom (.path _) => .schema (typed "string")
  | .atom (.cls id) =>
      match (program.classAt id).kind with
      | .rootModel root serialized => rootModelRule context id root serialized
      | _ => classRule program context (.atom (.cls id))
  | .atom _ => .schema []

-- A property of a record; where it has no type it derives to the open schema.
structure Property where
  name : Str
  pyType : Option PyType
  required : Bool

def firstName (names : List (Option Str)) (name : Str) : Str :=
  (names.findSome? fun candidate => candidate.filter fun text => text ≠ []).getD name

def modelProperties (fields : List ModelField) (computed : List ComputedField) : List Property :=
  ((fields.filter fun info => !info.exclude).map fun info =>
    ⟨firstName [info.serializationAlias, info.aliasName] info.name,
      if info.serialized then none else some info.annotationType, !info.excludeIf⟩) ++
  computed.map fun info =>
    ⟨firstName [info.aliasName] info.name,
      if info.serialized then none else info.returnType, !info.excludeIf⟩

-- What a component is: an enum's schema, or a record's properties and where they are derived.
inductive Content
  | schema (schema : Fields)
  | record (context : Context) (properties : List Property)

variable [UnicodeData]

def recordProperties (hints : List (Str × PyType)) (fields : List Str) : List Property :=
  fields.map fun name => ⟨toCamel name, some ((Entries.get? name hints).getD (.atom .any)), true⟩

def content (context : Context) (key : PyType) : Content :=
  match (definition key).map fun id => (program.classAt id).kind with
  | some (.strEnum values) => .schema (enumSchema "string" (values.map .str))
  | some (.intEnum values) => .schema (enumSchema "integer" (values.map .int))
  | some (.model fields computed _) => .record ⟨context.roots, true, []⟩ (modelProperties fields computed)
  | some (.dataclass parameters hints fields) =>
      .record ⟨context.roots, context.inModel, parameters.zip (typeArgs key)⟩ (recordProperties hints fields)
  | _ => .schema []

end Rules

section Deriving

inductive DeriveError
  | error (error : PyError)
  | collision (name : Str) (types : Str × Str) (topics : List Str)
deriving DecidableEq

-- Its token stands for the name until names are settled.
structure Component where
  key : PyType
  name : Str
  token : Str
  qualified : Str
  schema : Fields
  refs : List PyType

def tokenMark : Str := [⟨0, by decide⟩]

def tokenAt (index : Nat) : Str := tokenMark ++ Str.ofNat index

-- A computation on the components.
abbrev Deriving (α : Type) : Type := List Component → Except DeriveError (α × List Component)

-- A schema, and the types it refers to.
abbrev Derived := Fields × List PyType

def derivedProperties (derived : List (Property × Derived)) : Derived :=
  (recordSchema (derived.map fun property => (property.1.name, .obj property.2.1))
    ((derived.filter fun property => property.1.required).map fun property => property.1.name),
    derived.flatMap fun property => property.2.2)

section Steps

variable (recur : Context → PyType → Deriving Derived)

def deriveProperties (context : Context) : List Property → Deriving (List (Property × Derived))
  | [], components => .ok ([], components)
  | property :: rest, components => do
      let (derived, components) ←
        match property.pyType with
        | some pyType => recur context pyType components
        | none => .ok (([], []), components)
      let (others, components) ← deriveProperties context rest components
      return ((property, derived) :: others, components)

def deriveContent : Content → Deriving Derived
  | .schema schema, components => .ok ((schema, []), components)
  | .record context properties, components => do
      let (derived, components) ← deriveProperties recur context properties components
      return (derivedProperties derived, components)

end Steps

def fill (key : PyType) (derived : Derived) (components : List Component) : List Component :=
  components.map fun component =>
    if component.key = key then { component with schema := derived.1, refs := derived.2 } else component

variable [UnicodeData] (program : Program)

-- A component is entered before it is derived: a recursive type finds itself.
def deriveComponent (recur : Context → PyType → Deriving Derived) (context : Context) (key : PyType) :
    Deriving Str := fun components =>
  match components.find? fun component => component.key = key with
  | some component => .ok (component.token, components)
  | none => do
      let token := tokenAt components.length
      let entered : Component := ⟨key, componentName program key, token, qualified program key, [], []⟩
      let (derived, components) ← deriveContent recur (content program context key) (components ++ [entered])
      return (token, fill key derived components)

-- A type's schema, by as many nested steps as there is fuel.
def derive : Nat → Context → PyType → Deriving Derived
  | 0, _, _, _ => .error (.error .recursionError)
  | fuel + 1, context, pyType, components =>
      match rule program context pyType with
      | .schema schema => .ok ((schema, []), components)
      | .within inner pyType wrap => do
          let (derived, components) ← derive fuel inner pyType components
          return ((wrap.apply derived.1, derived.2), components)
      | .component key => do
          let (token, components) ← deriveComponent program (derive fuel) context key components
          return ((reference token, [key]), components)

end Deriving

end Benzene.Contract.Derivation
