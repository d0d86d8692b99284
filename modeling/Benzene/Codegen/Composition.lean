import Benzene.Contract.Document
import Benzene.Data.PostOrder

namespace Benzene.Codegen

open Benzene.Data
open Benzene.Contract (dictOf orEmpty)

section Composition

-- `"allOf" in schema`, before a value that is no mapping is asked for a member.
def notMapping (schema : Json) : PyError :=
  match schema with
  | .str text => if "allOf" <:+: text then ⟨.typeError, []⟩ else ⟨.attributeError, []⟩
  | .arr items => if .str "allOf" ∈ items then ⟨.typeError, []⟩ else ⟨.attributeError, []⟩
  | _ => ⟨.typeError, []⟩

def refName (schema : Json) : Option Str :=
  match schema with
  | .obj fields => Contract.refName fields
  | _ => none

-- A bare `oneOf` with no properties of its own.
def isUnionSchema (schema : Fields) : Bool :=
  (Json.getField schema "oneOf").isArr && (Json.getField schema "oneOf").truthy &&
    !(Json.getField schema "properties").truthy && ("allOf" : Str) ∉ Entries.keys schema

-- One member of `allOf`: the first reference is the base, whatever else is a mapping
-- has properties of the schema's own.
def composeMember (composed : Fields × Option Str) (member : Json) : Except PyError (Fields × Option Str) :=
  match member with
  | .obj fields =>
      match Contract.refName fields, composed.2 with
      | some base, none => .ok (composed.1, some base)
      | _, base => do return (Entries.update composed.1 (← dictOf (orEmpty fields "properties")), base)
  | _ => .ok composed

def ownProperties (schema : Json) : Except PyError (Fields × Option Str) :=
  match schema with
  | .obj fields =>
      match Entries.get? ("allOf" : Str) fields with
      | none => do return (← dictOf (orEmpty fields "properties"), none)
      | some members => do
          let (own, baseRef) ← (← members.iter).foldlM composeMember ([], none)
          return (Entries.update own (← dictOf (orEmpty fields "properties")), baseRef)
  | schema => .error (notMapping schema)

def baseRefName (schema : Json) : Except PyError (Option Str) := do return (← ownProperties schema).2

-- The components that a union names. A schema of another kind names none.
def unionNames (schema : Json) : List Str :=
  match schema with
  | .obj fields =>
      if isUnionSchema fields then
        match Json.getField fields "oneOf" with
        | .arr members => members.filterMap fun member => (refName member).filter fun name => name ≠ []
        | _ => []
      else []
  | _ => []

-- An empty name is none.
def dependencyNames (schema : Json) : Except PyError (List Str) := do
  let base ← baseRefName schema
  return (base.filter fun name => name ≠ []).toList ++ unionNames schema

end Composition

section Order

-- `schemas[name]`.
def schemaNamed (schemas : Fields) (name : Str) : Except PyError Json :=
  match Entries.get? name schemas with
  | some schema => .ok schema
  | none => .error ⟨.keyError, []⟩

def dependenciesOf (schemas : Fields) (name : Str) : Except PyError (List Str) := do
  dependencyNames (← schemaNamed schemas name)

def topologicalSchemaOrder (schemas : Fields) : Except PyError (List Str) :=
  PostOrder.postOrder (Entries.keys schemas) (dependenciesOf schemas)

variable {schemas : Fields}

end Order

end Benzene.Codegen
