import Benzene.Contract.Derivation

namespace Benzene.Contract.Derivation

open Benzene.Data
open Benzene.Mesh (Member reservedTopicPrefix)

section Topics

-- What each topic's entries refer to.
abbrev EntryRefs := List (Str × List PyType)

variable (components : List Component)

def refsOf (key : PyType) : List PyType :=
  match components.find? fun component => component.key = key with
  | some component => component.refs
  | none => []

-- The keys met from the pending ones, in as many rounds as there is fuel.
def reach : Nat → List PyType → List PyType → List PyType
  | 0, _, seen => seen
  | _ + 1, [], seen => seen
  | fuel + 1, key :: pending, seen =>
      if key ∈ seen then reach fuel pending seen
      else reach fuel (refsOf components key ++ pending) (key :: seen)

-- Every component's references are pending once at most.
def reached (refs : List PyType) : List PyType :=
  reach components (refs.length + (components.map fun component => component.refs.length).sum + 1) refs []

def topicsOf (entryRefs : EntryRefs) (key : PyType) : List Str :=
  (entryRefs.filter fun entry => key ∈ reached components entry.2).map Prod.fst

end Topics

section Finishing

-- The token of a reference that is not settled yet.
def pendingToken (fields : Fields) : Option Str :=
  match Json.getField fields "$ref" with
  | .str ref => if ref.startsWith (schemaRefPrefix ++ tokenMark) then some (ref.drop schemaRefPrefix.length) else none
  | _ => none

section Renaming

variable (final : List (Str × Str))

mutual

def rename : Json → Json
  | .obj fields =>
      match pendingToken fields with
      | some token =>
          .obj (Entries.set "$ref" (.str (schemaRefPrefix ++ (Entries.get? token final).getD [])) fields)
      | none => .obj (renameFields fields)
  | .arr items => .arr (renameItems items)
  | value => value

def renameFields : Fields → Fields
  | [] => []
  | (key, value) :: rest => (key, rename value) :: renameFields rest

def renameItems : List Json → List Json
  | [] => []
  | item :: rest => rename item :: renameItems rest

end

end Renaming

def byToken (components : List Component) : Fields :=
  components.map fun component => (component.token, .obj component.schema)

def finalNames (components : List Component) : List (Str × Str) :=
  components.map fun component => (component.token, component.name)

def groupNames (components : List Component) : List Str :=
  Str.sorted (distinct (components.map fun component => component.name))

-- The components of one name, by their qualified names.
def group (components : List Component) (name : Str) : List Component :=
  sortOn (fun component => component.qualified) (components.filter fun component => component.name = name)

variable [UnicodeData] (components : List Component) (entryRefs : EntryRefs)

def normalizeComponent (component : Component) : Except DeriveError Json :=
  match normalizeSchema (byToken components) (.obj component.schema) with
  | .ok normalized => .ok normalized
  | .error error => .error (.error error)

def collisionOf (first other : Component) : DeriveError :=
  .collision first.name (first.qualified, other.qualified)
    (Str.sorted (distinct (topicsOf components entryRefs first.key ++ topicsOf components entryRefs other.key)))

-- The components of one name describe one schema, or they collide.
def checkGroup (first : Component) (reference : Json) : List Component → Except DeriveError Unit
  | [] => .ok ()
  | other :: rest => do
      let normalized ← normalizeComponent components other
      if normalized.canonical ≠ reference.canonical then .error (collisionOf components entryRefs first other)
      else checkGroup first reference rest

def settleGroup (name : Str) : Except DeriveError (Option (Str × Json)) :=
  match group components name with
  | [] => .ok none
  | first :: others => do
      let reference ← normalizeComponent components first
      checkGroup components entryRefs first reference others
      return some (name, rename (finalNames components) (.obj first.schema))

def finish : Except DeriveError Fields := do
  return (← (groupNames components).mapM (settleGroup components entryRefs)).filterMap id

end Finishing

section Documents

-- A handler's declared response: `None`, `NoPayload`, or a type.
inductive ResponseType
  | undeclared
  | noPayload
  | declared (pyType : PyType)

-- A handler's definition, and a send's declaration.
structure Exchange where
  topic : Str
  version : Str
  requestType : PyType
  responseType : ResponseType

structure Event where
  topic : Str
  version : Str
  messageType : PyType

-- What one entry of a document declares.
structure Declared where
  topic : Str
  version : Str
  payload : PyType
  response : Option PyType

-- A handler with no declared response returns a payload of any shape.
def Exchange.asRequest (handler : Exchange) : Declared where
  topic := handler.topic
  version := handler.version
  payload := handler.requestType
  response := match handler.responseType with
    | .undeclared => some (.atom .none)
    | .noPayload => none
    | .declared pyType => some pyType

def Event.asEvent (event : Event) : Declared := ⟨event.topic, event.version, event.messageType, none⟩

-- A send with no declared response is one-way.
def Exchange.asSend (send : Exchange) : Declared where
  topic := send.topic
  version := send.version
  payload := send.requestType
  response := match send.responseType with
    | .declared pyType => some pyType
    | .undeclared | .noPayload => none

structure Entry where
  topic : Str
  version : Str
  payload : Json
  response : Option Json
  httpMappings : List (Str × Str)
deriving DecidableEq

structure Document where
  requests : List Entry
  events : List Entry
  sends : List Entry
  schemas : Fields
deriving DecidableEq

structure Registrations where
  handlers : List Exchange
  events : List Event
  sends : List Exchange

def isReservedTopic (topic : Str) : Bool := topic.startsWith reservedTopicPrefix

-- The entries of each kind: reserved topics are never listed.
def Registrations.declared (registrations : Registrations) : Member → List Declared
  | .requests => (registrations.handlers.map Exchange.asRequest).filter fun entry => !isReservedTopic entry.topic
  | .events => (registrations.events.map Event.asEvent).filter fun entry => !isReservedTopic entry.topic
  | .sends => (registrations.sends.map Exchange.asSend).filter fun entry => !isReservedTopic entry.topic

def topLevel : Context := ⟨[], false, []⟩

variable [UnicodeData] (program : Program) (fuel : Nat)

structure DerivedEntry where
  declared : Declared
  payload : Derived
  response : Option Derived

def deriveEntry (entry : Declared) : Deriving DerivedEntry := fun components => do
  let (payload, components) ← derive program fuel topLevel entry.payload components
  match entry.response with
  | none => return (⟨entry, payload, none⟩, components)
  | some pyType => do
      let (response, components) ← derive program fuel topLevel pyType components
      return (⟨entry, payload, some response⟩, components)

def deriveEntries : List Declared → Deriving (List DerivedEntry)
  | [], components => .ok ([], components)
  | entry :: rest, components => do
      let (derived, components) ← deriveEntry program fuel entry components
      let (others, components) ← deriveEntries rest components
      return (derived :: others, components)

def DerivedEntry.refs (entry : DerivedEntry) : Str × List PyType :=
  (entry.declared.topic, entry.payload.2 ++ (entry.response.map Prod.snd).getD [])

def DerivedEntry.settled (final : List (Str × Str)) (mappings : Str × Str → List (Str × Str))
    (entry : DerivedEntry) : Entry where
  topic := entry.declared.topic
  version := entry.declared.version
  payload := rename final (.obj entry.payload.1)
  response := entry.response.map fun response => rename final (.obj response.1)
  httpMappings := mappings (entry.declared.topic, entry.declared.version)

-- Entries are sorted by topic and then version.
def sortEntries (entries : List Entry) : List Entry := sortOn (fun entry => [entry.topic, entry.version]) entries

-- The entries and components of the document of some registrations.
def deriveDocument (mappings : Str × Str → List (Str × Str)) (registrations : Registrations) :
    Except DeriveError Document := do
  let (requests, components) ← deriveEntries program fuel (registrations.declared .requests) []
  let (events, components) ← deriveEntries program fuel (registrations.declared .events) components
  let (sends, components) ← deriveEntries program fuel (registrations.declared .sends) components
  let schemas ← finish components ((requests ++ events ++ sends).map DerivedEntry.refs)
  let final := finalNames components
  return ⟨sortEntries (requests.map (DerivedEntry.settled final mappings)),
    sortEntries (events.map (DerivedEntry.settled final fun _ => [])),
    sortEntries (sends.map (DerivedEntry.settled final fun _ => [])), schemas⟩

end Documents

section Payloads

def mappingPayload (mapping : Str × Str) : Json :=
  .obj [Json.field "method" (.str mapping.1), Json.field "path" (.str mapping.2)]

-- An entry of a member, by the name of its payload's field.
def Entry.toPayload (name : Str) (entry : Entry) : Json :=
  .obj ([Json.field "topic" (.str entry.topic)] ++
    Json.fieldIf (entry.version ≠ []) "version" (.str entry.version) ++
    Json.fieldIf (entry.httpMappings ≠ []) "httpMappings" (.arr (entry.httpMappings.map mappingPayload)) ++
    [(name, entry.payload)] ++ (entry.response.toList.map fun response => Json.field "response" response))

def Document.body (document : Document) : Fields :=
  [Json.field "requests" (.arr (document.requests.map (Entry.toPayload "request"))),
    Json.field "events" (.arr (document.events.map (Entry.toPayload "message"))),
    Json.field "sends" (.arr (document.sends.map (Entry.toPayload "request"))),
    Json.field "components" (.obj [Json.field "schemas" (.obj document.schemas)])]

end Payloads

end Benzene.Contract.Derivation
