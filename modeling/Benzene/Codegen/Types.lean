import Benzene.Codegen.Composition
import Benzene.Codegen.Naming

namespace Benzene.Codegen

open Benzene.Data

section Annotations

-- The one member of `allOf` in a nullable wrapper with no members of its own. A null
-- member is none.
def wrappedReference (schema : Fields) : Option Json :=
  match Json.getField schema "nullable", Json.getField schema "allOf" with
  | .bool true, .arr [member] =>
      if (Json.getField schema "properties").truthy ∨ member = .null then none else some member
  | _, _ => none

-- The members of a `oneOf`, where there are any.
def unionMembers (schema : Fields) : Option (List Json) :=
  match Json.getField schema "oneOf" with
  | .arr (member :: members) => some (member :: members)
  | _ => none

def unionOf (types : List Str) : Str :=
  match distinct types with
  | [type] => type
  | types => ("Union[" : Str) ++ Str.join ", " types ++ ("]" : Str)

theorem sizeOf_getField {schema : Fields} {key : Str} {value : Json} (h : Json.getField schema key = value)
    (hne : value ≠ .null) : sizeOf value < sizeOf schema := by
  induction schema with
  | nil => exact absurd h.symm hne
  | cons field rest ih =>
      obtain ⟨name, first⟩ := field
      rw [List.cons.sizeOf_spec, Prod.mk.sizeOf_spec]
      unfold Json.getField Entries.get? at h
      split at h
      · cases h
        show sizeOf first < _
        omega
      · have hlt := ih h
        omega

theorem sizeOf_wrappedReference {schema : Fields} {member : Json} (h : wrappedReference schema = some member) :
    sizeOf member < sizeOf schema := by
  unfold wrappedReference at h
  split at h
  · rename_i hmembers
    have hlt := sizeOf_getField hmembers (by simp)
    split at h
    · cases h
    · cases h
      simp only [Json.arr.sizeOf_spec, List.cons.sizeOf_spec] at hlt
      omega
  · cases h

theorem sizeOf_unionMembers {schema : Fields} {members : List Json} (h : unionMembers schema = some members)
    {member : Json} (hmember : member ∈ members) : sizeOf member < sizeOf schema := by
  unfold unionMembers at h
  split at h
  · rename_i hmembers
    have hlt := sizeOf_getField hmembers (by simp)
    cases h
    have hle := List.sizeOf_lt_of_mem hmember
    simp only [Json.arr.sizeOf_spec] at hlt
    omega
  · cases h

variable [IdentifierData]

-- The annotation of a schema. The class of a reference stands for it, inline objects
-- have none.
def getTypeName : Json → Str
  | .obj schema =>
      if schema = [] then "Any"
      else match Contract.refName schema with
        | some name => className name
        | none =>
            let type := Json.getField schema "type"
            let result : Str :=
              match _hwrapped : wrappedReference schema with
              | some member => getTypeName member
              | none =>
                  match _hmembers : unionMembers schema with
                  | some members => unionOf (members.attach.map fun member => getTypeName member.val)
                  | none =>
                      if type = .str "array" then
                        match _hitems : Json.getField schema "items" with
                        | .obj items => ("list[" : Str) ++ getTypeName (.obj items) ++ ("]" : Str)
                        | _ => "list[Any]"
                      else if type = .str "object" then
                        match _hvalues : Json.getField schema "additionalProperties" with
                        | .obj values => ("dict[str, " : Str) ++ getTypeName (.obj values) ++ ("]" : Str)
                        | _ => "dict[str, Any]"
                      else if type = .str "integer" then "int"
                      else if type = .str "number" then "float"
                      else if type = .str "boolean" then "bool"
                      else if type = .str "string" then "str"
                      else if ("properties" : Str) ∈ Entries.keys schema then "dict[str, Any]"
                      else "Any"
            if (Json.getField schema "nullable").truthy ∧ result ≠ "Any" then result ++ (" | None" : Str) else result
  | _ => "Any"
termination_by schema => sizeOf schema
decreasing_by
  · have hlt := sizeOf_wrappedReference _hwrapped
    simp only [Json.obj.sizeOf_spec]
    omega
  · have hlt := sizeOf_unionMembers _hmembers member.property
    simp only [Json.obj.sizeOf_spec]
    omega
  · have hlt := sizeOf_getField _hitems (by simp)
    simp only [Json.obj.sizeOf_spec] at hlt ⊢
    omega
  · have hlt := sizeOf_getField _hvalues (by simp)
    simp only [Json.obj.sizeOf_spec] at hlt ⊢
    omega

end Annotations

section Sources

-- The default a field is written with.
inductive Default
  | none
  | list
  | dict
  | emptyText
  | zero
  | zeroFloat
  | false
deriving DecidableEq

def defaultFor ( typeAnnotation : Str) : Default :=
  if ("| None" : Str) <:+ typeAnnotation ∨ typeAnnotation = "Any" then .none
  else if typeAnnotation.startsWith "list[" then .list
  else if typeAnnotation.startsWith "dict[" then .dict
  else if typeAnnotation = "str" then .emptyText
  else if typeAnnotation = "int" then .zero
  else if typeAnnotation = "float" then .zeroFloat
  else if typeAnnotation = "bool" then .false
  else .none

structure Field where
  wireName : Str
  pythonName : Str
  typeAnnotation : Str
  default : Default

-- The Python source of one component: a union's alias, or a dataclass with the name of
-- its base.
inductive SchemaSource
  | alias (name target : Str)
  | dataclass (name : Str) (base : Option Str) (fields : List Field)

def SchemaSource.name : SchemaSource → Str
  | .alias name _ => name
  | .dataclass name _ _ => name

variable [IdentifierData]

-- Of the properties whose fields have one name the first is kept.
def fieldsFrom (seen : List Str) : Fields → List Field
  | [] => []
  | (wireName, schema) :: rest =>
      let pythonName := fieldName wireName
      if pythonName ∈ seen then fieldsFrom seen rest
      else ⟨wireName, pythonName, getTypeName schema, defaultFor (getTypeName schema)⟩ ::
        fieldsFrom (pythonName :: seen) rest

def buildFields (schema : Json) : Except PyError (List Field) := do
  return fieldsFrom [] (← ownProperties schema).1

def buildSchemaSource (name : Str) (schema : Json) : Except PyError SchemaSource :=
  match schema with
  | .obj fields =>
      if isUnionSchema fields then
        .ok (.alias (className name) (unionOf (((unionMembers fields).getD []).map getTypeName)))
      else do
        let base := (← ownProperties schema).2.filter fun base => base ≠ []
        return .dataclass (className name) (base.map className) (← buildFields schema)
  | _ => .error ⟨.attributeError, []⟩

def renderSchemas (schemas : Fields) : Except PyError (List SchemaSource) := do
  (← topologicalSchemaOrder schemas).mapM fun name => do buildSchemaSource name (← schemaNamed schemas name)

end Sources

end Benzene.Codegen
