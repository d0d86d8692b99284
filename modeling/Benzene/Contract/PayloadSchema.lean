import Benzene.Contract.Derivation
import Benzene.Data.PostOrder

namespace Benzene.Contract.Payload

open Benzene.Data
open Benzene.Core (toCamel)
open Benzene.Contract.Derivation (typed formatted literalSchema enumSchema arraySchema mapSchema recordSchema firstName)

section Types

-- `_PRIMITIVES`.
def primitiveSchema : Primitive → Fields
  | .bool => typed "boolean"
  | .int => typed "integer"
  | .float => typed "number"
  | .str => typed "string"
  | .bytes => typed "string"
  | .datetime => formatted "string" "date-time"
  | .date => formatted "string" "date"
  | .time => typed "string"
  | .timedelta => formatted "string" "duration"
  | .uuid => formatted "string" "uuid"
  | .decimal => typed "number"

-- The values of `type`: one name, or a list of them.
def typeNames : Json → List Json
  | .arr names => names
  | name => [name]

def withItem (items : List Json) (item : Json) : List Json := if item ∈ items then items else items ++ [item]

-- Adds `null` to a schema's type, and to its values where it lists them.
def asNullable (schema : Fields) : Fields :=
  match Entries.get? ("type" : Str) schema with
  | none => schema
  | some existing =>
      let nullable : Fields := Entries.set ("type" : Str) (.arr (withItem (typeNames existing) (.str "null"))) schema
      match Entries.get? ("enum" : Str) schema with
      | some (.arr values) => Entries.set ("enum" : Str) (.arr (withItem values .null)) nullable
      | _ => nullable

-- A `None` among the values is `null` in the type and in the values.
def literalUnion (values : List LiteralValue) : Fields :=
  let schema := literalSchema (values.filter fun value => value ≠ .none)
  if .none ∈ values then asNullable schema else schema

section Positions

-- What a class comes to, by whether a model's dump writes the position.
variable (enter : Bool → ClassId → Fields) (inModel : Bool)

mutual

-- The branches of `_schema`. A type variable and a generic class with arguments are unknown to it.
def schema : PyType → Fields
  | .atom (.literal values) => literalUnion values
  | .atom (.primitive primitive) => primitiveSchema primitive
  | .atom (.path _) => typed "string"
  | .atom (.cls id) => enter inModel id
  | .atom _ => []
  | .annotated base metadata => if metadata.any fun item => item.serializer then [] else schema base
  | .alias (.union _) args =>
      match (args.zip (argSchemas args)).filter fun entry => entry.1 ≠ .atom .none with
      | [(_, inner)] => if args.length = 1 then inner else asNullable inner
      | _ => []
  | .alias .list args => arraySchema ((argSchemas args).headD [])
  | .alias .tuple args => arraySchema ((argSchemas args).headD [])
  | .alias .set args => arraySchema ((argSchemas args).headD [])
  | .alias .frozenset args => arraySchema ((argSchemas args).headD [])
  | .alias .dict args =>
      match argSchemas args with
      | [_, value] => mapSchema value
      | _ => mapSchema []
  | .alias (.cls _) _ => []

def argSchemas : List PyType → List Fields
  | [] => []
  | arg :: rest => schema arg :: argSchemas rest

end

theorem argSchemas_eq (args : List PyType) : argSchemas enter inModel args = args.map (schema enter inModel) := by
  induction args with
  | nil => rfl
  | cons arg rest ih => rw [argSchemas, ih, List.map_cons]

theorem schema_union (name : Str) (args : List PyType) :
    schema enter inModel (.alias (.union name) args) =
      match args.filter fun arg => arg ≠ .atom .none with
      | [arg] =>
          if args.length = 1 then schema enter inModel arg else asNullable (schema enter inModel arg)
      | _ => [] := by
  have hzip : args.zip (argSchemas enter inModel args) = args.map fun arg => (arg, schema enter inModel arg) := by
    have h := @List.zip_map' _ _ _ id (schema enter inModel) args
    rw [List.map_id] at h
    rw [argSchemas_eq]
    exact h
  rw [schema, hzip, List.filter_map]
  show (match (args.filter fun arg => arg ≠ .atom .none).map fun arg => (arg, schema enter inModel arg) with
    | [(_, inner)] => if args.length = 1 then inner else asNullable inner
    | _ => []) = _
  generalize args.filter (fun arg => arg ≠ .atom .none) = others
  rcases others with _ | ⟨first, _ | ⟨second, rest⟩⟩ <;> rfl

end Positions

end Types

section Classes

-- What a class says of its fields beside their hints: an annotation as it is written, and whether
-- the field has to be supplied (no default and no default factory; `is_required()` of a model's).
structure Declarations where
  asWritten : ClassId → Str → PyType
  required : ClassId → Str → Bool

variable (program : Program)

-- The classes that are not being entered yet.
def unseen (seen : List ClassId) : Nat := (PostOrder.pending (List.range program.classes.length) seen).length

theorem unseen_lt {seen : List ClassId} {id : ClassId} (hnew : id ∉ seen)
    (hplain : (program.classAt id).kind ≠ .plain) : unseen program (id :: seen) < unseen program seen := by
  apply PostOrder.pending_cons_lt _ hnew
  rw [List.mem_range]
  by_contra hout
  apply hplain
  unfold Program.classAt
  rw [List.getElem?_eq_none (Nat.le_of_not_lt hout)]
  rfl

variable [UnicodeData] (declarations : Declarations)

-- What a class comes to where those of `seen` are being entered: one of them is cut.
def classSchema (seen : List ClassId) (inModel : Bool) (id : ClassId) : Fields :=
  match _hkind : (program.classAt id).kind with
  | .strEnum values => enumSchema "string" (values.map .str)
  | .intEnum values => enumSchema "integer" (values.map .int)
  | .plain => []
  | .rootModel root serialized =>
      if _hseen : id ∈ seen ∨ serialized = true then []
      else
        match root with
        | some (rootType, false) => schema (classSchema (id :: seen)) true rootType
        | _ => []
  | .model fields computed serialized =>
      if _hseen : id ∈ seen ∨ serialized = true then []
      else
        let dumped := fields.filter fun info => !info.exclude
        let keyOf := fun info : ModelField => firstName [info.serializationAlias, info.aliasName] info.name
        recordSchema
          ((dumped.map fun info => (keyOf info, Json.obj
            (if info.serialized then [] else schema (classSchema (id :: seen)) true info.annotationType))) ++
          computed.map fun info => (firstName [info.aliasName] info.name, Json.obj
            (match info.serialized, info.returnType with
            | false, some pyType => schema (classSchema (id :: seen)) true pyType
            | _, _ => [])))
          ((dumped.filter fun info => declarations.required id info.name).map keyOf)
  | .dataclass _ hints fields =>
      if _hseen : inModel = true ∨ id ∈ seen then []
      else
        recordSchema
          (fields.map fun name => (toCamel name, Json.obj (schema (classSchema (id :: seen)) false
            ((Entries.get? name hints).getD (declarations.asWritten id name)))))
          ((fields.filter fun name => declarations.required id name).map toCamel)
termination_by unseen program seen
decreasing_by all_goals exact unseen_lt program (by simp_all) (by rw [_hkind]; nofun)

-- The JSON Schema 2020-12 of a payload type.
def jsonSchema (pyType : PyType) : Fields := schema (classSchema program declarations []) false pyType

end Classes

end Benzene.Contract.Payload
