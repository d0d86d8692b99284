import Benzene.Data.Canonical

namespace Benzene.Contract

open Benzene.Data

section Sorting

-- A sort whose keys may raise. Every key is taken before any comparison.
def sortedBy {α κ ε : Type} [LinearOrder κ] (key : α → Except ε κ) (items : List α) : Except ε (List α) := do
  let keyed ← items.mapM fun item => do return (← key item, item)
  return (sortOn Prod.fst keyed).map Prod.snd

-- The order of UTF-16 code units. A lone surrogate has no encoding.
def utf16Key [UnicodeData] (value : Json) : Except PyError (List Nat) :=
  if value.text.Encodable then .ok value.text.utf16 else .error ⟨.unicodeEncodeError, []⟩

end Sorting

section Keywords

def schemaRefPrefix : Str := "#/components/schemas/"

-- The documentation keywords, and `format`.
def annotations : List Str :=
  ["title", "description", "default", "examples", "example", "deprecated", "readOnly", "writeOnly",
    "$comment", "$id", "$schema", "format"]

def annotates (key : Str) : Bool := key ∈ annotations || key.startsWith "x-"

-- What a keyword holds: a schema, a map of schemas, a list of schemas, or no schema.
inductive Position
  | schema
  | properties
  | branches
  | plain
deriving DecidableEq

def schemaKeywords : List Str := ["items", "additionalProperties", "not"]

def branchKeywords : List Str := ["allOf", "anyOf", "oneOf"]

def position (key : Str) : Position :=
  if key = "properties" then .properties
  else if key ∈ schemaKeywords then .schema
  else if key ∈ branchKeywords then .branches
  else .plain

-- The component that a reference names.
def refName (schema : Fields) : Option Str :=
  match Json.getField schema "$ref" with
  | .str ref => Str.stripPrefix? schemaRefPrefix ref
  | _ => none

-- An empty `required` goes, and so do the component names of a discriminator.
def plainKeyword [UnicodeData] (key : Str) (value : Json) : Except PyError (Option Json) :=
  match value with
  | .arr items =>
      if key = "required" then
        if items = [] then .ok none else do return some (.arr (← sortedBy utf16Key items))
      else .ok (some value)
  | .obj fields =>
      .ok (some (if key = "discriminator" then .obj (Entries.erase "mapping" fields) else value))
  | _ => .ok (some value)

def nullableKeywords : List Str := ["type", "nullable", "allOf"]

-- The one reference that a schema wraps in `allOf`.
def wrappedName (schema : Fields) : Option Str :=
  match Json.getField schema "allOf" with
  | .arr [.obj member] => refName member
  | _ => none

-- A nullable wrapper around a reference that was cut.
def isCutNullableReference (original normalized : Fields) (expanding : List Str) : Bool :=
  match wrappedName original with
  | some name =>
      name ∈ expanding && Json.getField normalized "nullable" = .bool true &&
        (Entries.keys normalized).all fun key => key ∈ nullableKeywords
  | none => false

def emptyProperties : Str × Json := ("properties", .obj [])

-- An empty `properties` goes.
def withoutEmpty (schema : Fields) : Fields := schema.filter fun keyword => keyword ≠ emptyProperties

end Keywords

section Normalizing

variable [UnicodeData] (expand : Str → Except PyError Json) (expanding : List Str)

mutual

-- One schema, with `expand` for the references that are not being expanded already.
def normalizeAt : Position → Json → Except PyError Json
  | .schema, .obj schema =>
      match refName schema with
      | some name => if name ∈ expanding then .ok (.obj []) else expand name
      | none => do
          let out := withoutEmpty (← normalizeKeywords schema)
          return .obj (if isCutNullableReference schema out expanding then [] else out)
  | .properties, .obj members => do return .obj (← normalizeMembers members)
  | .branches, .arr branches => do return .arr (← normalizeBranches branches)
  | _, value => .ok value

def normalizeKeywords : Fields → Except PyError Fields
  | [] => .ok []
  | (key, value) :: rest =>
      if annotates key then normalizeKeywords rest
      else match position key with
        | .plain => do
            let kept ← plainKeyword key value
            return (kept.toList.map fun value => (key, value)) ++ (← normalizeKeywords rest)
        | position => do
            let value ← normalizeAt position value
            return (key, value) :: (← normalizeKeywords rest)

def normalizeMembers : Fields → Except PyError Fields
  | [] => .ok []
  | (key, value) :: rest => do
      let value ← normalizeAt .schema value
      return (key, value) :: (← normalizeMembers rest)

def normalizeBranches : List Json → Except PyError (List Json)
  | [] => .ok []
  | branch :: rest => do
      let branch ← normalizeAt .schema branch
      return branch :: (← normalizeBranches rest)

end

end Normalizing

section Catalogue

-- A dangling reference reads as the open schema.
def component (catalogue : Fields) (name : Str) : Json := (Entries.get? name catalogue).getD (.obj [])

variable [UnicodeData] (catalogue : Fields)

-- A path expands no name twice, so there are never more nested expansions than
-- components, and one for a dangling reference.
def normalizeWithin : Nat → List Str → Json → Except PyError Json
  | 0, expanding => normalizeAt (fun _ => .ok (.obj [])) expanding .schema
  | fuel + 1, expanding =>
      normalizeAt (fun name => normalizeWithin fuel (name :: expanding) (component catalogue name))
        expanding .schema

def normalize (expanding : List Str) (schema : Json) : Except PyError Json :=
  normalizeWithin catalogue (catalogue.length + 1) expanding schema

def normalizeSchema (schema : Json) : Except PyError Json := normalize catalogue [] schema

end Catalogue

end Benzene.Contract
