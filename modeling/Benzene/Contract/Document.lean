import Benzene.Contract.Projection

namespace Benzene.Contract

open Benzene.Data
open Benzene.Mesh (Member isReservedTopic)

section Model

structure HttpMapping where
  method : Json
  path : Json

-- What is no text or number of its own is kept as it was sent; null is absent.
structure RequestResponse where
  topic : Json
  request : Json
  response : Json
  version : Json
  httpMappings : List HttpMapping

structure EventEntry where
  topic : Json
  message : Json
  version : Json

structure SendEntry where
  topic : Json
  request : Json
  response : Json
  version : Json

structure ContractDocument where
  schemaDialect : Str
  service : Str
  serviceVersion : Json
  versionScheme : Json
  description : Json
  requests : List RequestResponse
  events : List EventEntry
  sends : List SendEntry
  schemas : Fields
  messageEndpoint : Json
  transports : List Json
  contractHash : Json
  registrationHash : Json

end Model

section Parsing

variable [UnicodeData]

def contractDocumentError (message : Str) : PyError := ⟨.exception "ContractDocumentError", message⟩

def unknownSchemaDialect (dialect : Json) : PyError :=
  let found : Str := if dialect = .null then "has no schemaDialect"
    else ("has schemaDialect " : Str) ++ dialect.repr
  ⟨.exception "UnknownSchemaDialectError", ("The document " : Str) ++ found ++
    ("; this generator reads ['openapi-3.0']. A document without one predates spec-0.3.0: fetch it " : Str) ++
    ("again from an up-to-date service." : Str)⟩

def domainEntry (member : Member) (entry : Json) : Except PyError (Option Fields) :=
  let missing := contractDocumentError
    (member.key ++ ("[] entry is missing required field 'topic': " : Str) ++ entry.repr)
  match entry with
  | .obj fields =>
      match Entries.get? ("topic" : Str) fields with
      | some topic => .ok (if isReservedTopic topic.text then none else some fields)
      | none => .error missing
  | _ => .error missing

-- The entries of a member, the reserved ones left out.
def domainEntries (data : Fields) (member : Member) : Except PyError (List Fields) := do
  let entries ← (← (Json.orElse (Json.getField data member.key) (.arr [])).iter).mapM (domainEntry member)
  return entries.filterMap id

-- `value[key]`.
def subscript (value : Json) (key : Str) : Except PyError Json :=
  match value with
  | .obj fields =>
      match Entries.get? key fields with
      | some found => .ok found
      | none => .error ⟨.keyError, []⟩
  | _ => .error ⟨.typeError, []⟩

def parseHttpMapping (mapping : Json) : Except PyError HttpMapping := do
  return ⟨← subscript mapping "method", ← subscript mapping "path"⟩

def orEmpty (fields : Fields) (key : Str) : Json := Json.orElse (Json.getField fields key) (.obj [])

def parseRequest (entry : Fields) : Except PyError RequestResponse := do
  let mappings ← (← (Json.orElse (Json.getField entry "httpMappings") (.arr [])).iter).mapM parseHttpMapping
  return ⟨Json.getField entry "topic", orEmpty entry "request", Json.getField entry "response",
    Json.getField entry "version", mappings⟩

def parseEvent (entry : Fields) : EventEntry :=
  ⟨Json.getField entry "topic", orEmpty entry "message", Json.getField entry "version"⟩

def parseSend (entry : Fields) : SendEntry :=
  ⟨Json.getField entry "topic", orEmpty entry "request", Json.getField entry "response",
    Json.getField entry "version"⟩

-- `dict(value)`: a mapping, or pairs. A schema is looked up by its name, so that
-- a pair whose key is no text is left out.
def dictPair (item : Json) : Except PyError (Option (Str × Json)) := do
  match ← item.iter with
  | [key, value] =>
      if !key.hashable then .error ⟨.typeError, []⟩
      else match key with
        | .str name => return some (name, value)
        | _ => return none
  | _ => .error ⟨.valueError, []⟩

def dictOf (value : Json) : Except PyError Fields :=
  match value with
  | .obj fields => .ok fields
  | value => do
      let pairs ← (← value.iter).mapM dictPair
      return Entries.update [] (pairs.filterMap id)

def parseDocument (data : Json) : Except PyError ContractDocument := do
  match data with
  | .obj data =>
      let dialect := Json.getField data "schemaDialect"
      if !dialect.hashable then .error ⟨.typeError, []⟩
      else if dialect ≠ .str "openapi-3.0" then .error (unknownSchemaDialect dialect)
      else
        let components := orEmpty data "components"
        let requests ← (← domainEntries data .requests).mapM parseRequest
        let events := (← domainEntries data .events).map parseEvent
        let sends := (← domainEntries data .sends).map parseSend
        let schemas ← dictOf (Json.orElse (← components.get "schemas") (.obj []))
        let transports ← (Json.orElse (Json.getField data "transports") (.arr [])).iter
        return {
          schemaDialect := dialect.text
          service := (Json.orElse (Json.getField data "service") (.str [])).text
          serviceVersion := Json.getField data "serviceVersion"
          versionScheme := Json.getField data "versionScheme"
          description := Json.getField data "description"
          requests := requests
          events := events
          sends := sends
          schemas := schemas
          messageEndpoint := Json.getField data "messageEndpoint"
          transports := transports
          contractHash := Json.getField data "contractHash"
          registrationHash := Json.getField data "registrationHash" }
  | _ => .error (contractDocumentError "A Contract Document must be a JSON object.")

end Parsing

section Serializing

-- A member that is written only where it is not null.
def presentField (key : Str) (value : Json) : Fields := Json.fieldIf (value ≠ .null) key value

def HttpMapping.toRaw (mapping : HttpMapping) : Json :=
  .obj [Json.field "method" mapping.method, Json.field "path" mapping.path]

def RequestResponse.toRaw (r : RequestResponse) : Fields :=
  [Json.field "topic" r.topic] ++ presentField "version" r.version ++
    Json.fieldIf (!r.httpMappings.isEmpty) "httpMappings" (.arr (r.httpMappings.map HttpMapping.toRaw)) ++
    [Json.field "request" r.request] ++ presentField "response" r.response

def EventEntry.toRaw (e : EventEntry) : Fields :=
  [Json.field "topic" e.topic] ++ presentField "version" e.version ++ [Json.field "message" e.message]

def SendEntry.toRaw (s : SendEntry) : Fields :=
  [Json.field "topic" s.topic] ++ presentField "version" s.version ++
    [Json.field "request" s.request] ++ presentField "response" s.response

-- The members that come before the entries.
def ContractDocument.header (document : ContractDocument) : Fields :=
  [Json.field "schemaDialect" (.str document.schemaDialect), Json.field "service" (.str document.service)] ++
    presentField "serviceVersion" document.serviceVersion ++
    presentField "versionScheme" document.versionScheme ++
    presentField "description" document.description ++
    presentField "messageEndpoint" document.messageEndpoint ++
    Json.fieldIf (!document.transports.isEmpty) "transports" (.arr document.transports)

-- The hashes are not copied: they are those of the projection.
def toRawDocument (document : ContractDocument) : Fields :=
  document.header ++
    [Json.field "requests" (.arr (document.requests.map fun r => .obj r.toRaw)),
      Json.field "events" (.arr (document.events.map fun e => .obj e.toRaw)),
      Json.field "sends" (.arr (document.sends.map fun s => .obj s.toRaw)),
      Json.field "components" (.obj [Json.field "schemas" (.obj document.schemas)])]

theorem getField_append_of_notMem {key : Str} {a : Fields} (h : key ∉ Entries.keys a) (b : Fields) :
    Json.getField (a ++ b) key = Json.getField b key := by
  unfold Json.getField
  rw [Entries.get?_append, (Entries.get?_eq_none_iff key a).mpr h]
  rfl

theorem keys_presentField (key : Str) (value : Json) :
    ∀ other ∈ Entries.keys (presentField key value), other = key := by
  unfold presentField Json.fieldIf
  split <;> simp

theorem keys_fieldIf (present : Bool) (key : Str) (value : Json) :
    ∀ other ∈ Entries.keys (Json.fieldIf present key value), other = key := by
  unfold Json.fieldIf
  split <;> simp

def headerKeys : List Str :=
  ["schemaDialect", "service", "serviceVersion", "versionScheme", "description", "messageEndpoint", "transports"]

theorem keys_header (document : ContractDocument) :
    ∀ key ∈ Entries.keys document.header, key ∈ headerKeys := by
  intro key hkey
  unfold ContractDocument.header Entries.keys at hkey
  simp only [List.map_append, List.mem_append] at hkey
  rcases hkey with ((((hkey | hkey) | hkey) | hkey) | hkey) | hkey
  · simp only [List.map_cons, List.map_nil, List.mem_cons, List.not_mem_nil, or_false] at hkey
    rcases hkey with rfl | rfl
    · decide
    · decide
  · rw [keys_presentField _ _ key hkey]
    decide
  · rw [keys_presentField _ _ key hkey]
    decide
  · rw [keys_presentField _ _ key hkey]
    decide
  · rw [keys_presentField _ _ key hkey]
    decide
  · rw [keys_fieldIf _ _ _ key hkey]
    decide

theorem getField_toRawDocument (document : ContractDocument) {key : Str} (h : key ∉ headerKeys) :
    Json.getField (toRawDocument document) key =
      Json.getField [Json.field "requests" (.arr (document.requests.map fun r => .obj r.toRaw)),
        Json.field "events" (.arr (document.events.map fun e => .obj e.toRaw)),
        Json.field "sends" (.arr (document.sends.map fun s => .obj s.toRaw)),
        Json.field "components" (.obj [Json.field "schemas" (.obj document.schemas)])] key :=
  getField_append_of_notMem (fun hkey => h (keys_header document key hkey)) _

theorem schemasOf_toRawDocument (document : ContractDocument) :
    schemasOf (toRawDocument document) = document.schemas := by
  unfold schemasOf
  rw [getField_toRawDocument document (by decide)]
  rfl

-- The entries of one member, as they are written.
def ContractDocument.rawEntries (document : ContractDocument) : Member → List Fields
  | .requests => document.requests.map RequestResponse.toRaw
  | .events => document.events.map EventEntry.toRaw
  | .sends => document.sends.map SendEntry.toRaw

theorem getField_toRawDocument_member (document : ContractDocument) (member : Member) :
    Json.getField (toRawDocument document) member.key = .arr ((document.rawEntries member).map .obj) := by
  cases member with
  | requests =>
      rw [getField_toRawDocument document (by decide)]
      exact congrArg Json.arr List.map_map.symm
  | events =>
      rw [getField_toRawDocument document (by decide)]
      exact congrArg Json.arr List.map_map.symm
  | sends =>
      rw [getField_toRawDocument document (by decide)]
      exact congrArg Json.arr List.map_map.symm

end Serializing

end Benzene.Contract
