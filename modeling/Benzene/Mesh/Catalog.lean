import Benzene.Mesh.SpecDoc
import Mathlib.Data.Finset.Sort

namespace Benzene.Mesh

open Benzene.Data

def snapshotVersion : Int := 4

-- One heartbeating instance. Its hash is kept as it arrived.
structure Instance where
  healthy : Bool
  registrationHash : Json
  serviceVersion : Option Str
  healthChecks : Fields
deriving DecidableEq

structure Service where
  name : Str
  registered : Bool := false
  registrationHash : Option Str := none
  previousRegistrationHash : Option Str := none
  consumed : List Str := []
  produced : List Str := []
  known : List Str := []
  document : Fields := []
  topicSpecs : Dict Str Fields := Dict.empty
  previousTopicSpecs : Dict Str Fields := Dict.empty
  instances : Dict Str Instance := Dict.empty
  reportedIssues : Bool := false
deriving DecidableEq

-- A traced event. Its parent and its start are kept as they arrived.
structure Event where
  traceId : Str
  spanId : Str
  parentSpanId : Json
  service : Str
  topic : Str
  status : Str
  startedAt : Json
  durationMs : PyFloat
deriving DecidableEq

-- The collector's memory. `topics` and `everConsumed` only grow; `spanOwner`
-- maps a span to the service that emitted it.
structure Catalog where
  services : Dict Str Service
  topics : Finset Str
  everConsumed : Finset Str
  events : List Event
  spanOwner : Dict Str Str
  issues : Dict Str Fields
deriving DecidableEq

namespace Catalog

def empty : Catalog := ⟨Dict.empty, ∅, ∅, [], Dict.empty, Dict.empty⟩

-- The record of a service, a blank one where the catalog has none.
def serviceOrNew (c : Catalog) (name : Str) : Service := (c.services.get? name).getD { name := name }

def setService (c : Catalog) (name : Str) (record : Service) : Catalog :=
  { c with services := c.services.set name record }

-- The names of the services that satisfy `p`, sorted.
def serviceNames (c : Catalog) (p : Service → Bool) : List Str :=
  Str.sorted ((c.services.entries.filter fun entry => p entry.2).map Prod.fst)

-- A provider publishes or sends to the topic by its latest registration.
def providersOf (c : Catalog) (topic : Str) : List Str :=
  c.serviceNames fun record => topic ∈ record.produced

-- A consumer serves the topic by its latest registration.
def consumersOf (c : Catalog) (topic : Str) : List Str :=
  c.serviceNames fun record => topic ∈ record.consumed

theorem serviceOrNew_setService (c : Catalog) (name other : Str) (record : Service) :
    (c.setService name record).serviceOrNew other =
      if name = other then record else c.serviceOrNew other := by
  simp only [serviceOrNew, setService, Dict.get?_set]
  split <;> rfl

-- Storing a record that is there, or the blank one, changes no record.
@[simp] theorem serviceOrNew_setService_self (c : Catalog) (name other : Str) :
    (c.setService name (c.serviceOrNew name)).serviceOrNew other = c.serviceOrNew other := by
  rw [serviceOrNew_setService]
  split <;> simp_all

theorem mem_serviceNames {c : Catalog} {p : Service → Bool} {name : Str}
    (hblank : p { name := name } = false) :
    name ∈ c.serviceNames p ↔ p (c.serviceOrNew name) = true := by
  simp only [serviceNames, Str.mem_sorted, List.mem_map, List.mem_filter, serviceOrNew]
  constructor
  · rintro ⟨⟨_, record⟩, ⟨hmem, hp⟩, rfl⟩
    rw [(Dict.mem_entries_iff _ _ _).mp hmem]
    exact hp
  · intro hp
    cases hget : c.services.get? name with
    | none => simp [hget, hblank] at hp
    | some record =>
        rw [hget] at hp
        exact ⟨(name, record), ⟨(Dict.mem_entries_iff _ _ _).mpr hget, hp⟩, rfl⟩

theorem mem_providersOf {c : Catalog} {topic name : Str} :
    name ∈ c.providersOf topic ↔ topic ∈ (c.serviceOrNew name).produced := by
  simp [providersOf, mem_serviceNames]

theorem mem_consumersOf {c : Catalog} {topic name : Str} :
    name ∈ c.consumersOf topic ↔ topic ∈ (c.serviceOrNew name).consumed := by
  simp [consumersOf, mem_serviceNames]

theorem serviceNames_strict (c : Catalog) (p : Service → Bool) :
    (c.serviceNames p).Pairwise (· < ·) :=
  Str.sorted_strict (c.services.nodup.sublist (List.filter_sublist.map _))

-- A traced service becomes known, its topic and its span are recorded.
def observe (c : Catalog) (event : Event) : Catalog :=
  { c.setService event.service (c.serviceOrNew event.service) with
    events := c.events ++ [event]
    spanOwner := c.spanOwner.set event.spanId event.service
    topics := insert event.topic c.topics }

@[simp] theorem serviceOrNew_observe (c : Catalog) (event : Event) (name : Str) :
    (c.observe event).serviceOrNew name = c.serviceOrNew name :=
  c.serviceOrNew_setService_self event.service name

end Catalog

section Snapshot

def strings (texts : List Str) : Json := .arr (texts.map .str)

def optionalJson (value : Option Str) : Json :=
  match value with
  | some text => .str text
  | none => .null

def objects (entries : Dict Str Fields) : Json :=
  .obj (Entries.mapValues .obj entries.entries)

def Instance.snapshot (instanceId : Str) (record : Instance) : Json :=
  .obj [Json.field "instanceId" (.str instanceId), Json.field "healthy" (.bool record.healthy),
    Json.field "registrationHash" record.registrationHash,
    Json.field "serviceVersion" (optionalJson record.serviceVersion),
    Json.field "healthChecks" (.obj record.healthChecks)]

def Service.snapshot (record : Service) : Json :=
  .obj [Json.field "name" (.str record.name), Json.field "registered" (.bool record.registered),
    Json.field "registrationHash" (optionalJson record.registrationHash),
    Json.field "previousRegistrationHash" (optionalJson record.previousRegistrationHash),
    Json.field "consumed" (strings record.consumed),
    Json.field "produced" (strings record.produced), Json.field "known" (strings record.known),
    Json.field "document" (.obj record.document),
    Json.field "topicSpecs" (objects record.topicSpecs),
    Json.field "previousTopicSpecs" (objects record.previousTopicSpecs),
    Json.field "reportedIssues" (.bool record.reportedIssues),
    Json.field "instances" (.arr (record.instances.entries.map fun entry =>
      entry.2.snapshot entry.1))]

def Event.snapshot (event : Event) : Json :=
  .obj [Json.field "traceId" (.str event.traceId), Json.field "spanId" (.str event.spanId),
    Json.field "parentSpanId" event.parentSpanId, Json.field "service" (.str event.service),
    Json.field "topic" (.str event.topic), Json.field "status" (.str event.status),
    Json.field "startedAt" event.startedAt, Json.field "durationMs" (.float event.durationMs)]

-- The whole catalog as a JSON-able dictionary.
def Catalog.snapshot (c : Catalog) : Fields :=
  [Json.field "version" (.int snapshotVersion),
    Json.field "services" (.arr (c.services.values.map Service.snapshot)),
    Json.field "topics" (strings (c.topics.sort (· ≤ ·))),
    Json.field "everConsumed" (strings (c.everConsumed.sort (· ≤ ·))),
    Json.field "events" (.arr (c.events.map Event.snapshot)),
    Json.field "issues" (objects c.issues)]

end Snapshot

-- `durationMs`: anything but a finite, non-negative number reads as 0. The
-- conversion of an integer past the float range raises.
def durationMs (value : Json) : Except PyError PyFloat :=
  match value with
  | .int n => do
      let duration ← PyFloat.ofInt n
      return if 0 ≤ n then duration else .finite (Decimal.ofParts 0 0)
  | .float (.finite d) => .ok (.finite (if 0 ≤ d.mantissa then d else Decimal.ofParts 0 0))
  | _ => .ok (.finite (Decimal.ofParts 0 0))

section Decoding

variable [UnicodeData]

-- `raw.get(key, "")`, as text.
def textField (fields : Fields) (key : Str) : Str :=
  ((Entries.get? key fields).getD (.str [])).text

-- One event as a trace batch and a snapshot carry it.
def decodeEvent : Json → Except PyError Event
  | .obj raw => do
      let duration ← durationMs (Json.getField raw "durationMs")
      return {
        traceId := textField raw "traceId"
        spanId := textField raw "spanId"
        parentSpanId := Json.getField raw "parentSpanId"
        service := textField raw "service"
        topic := textField raw "topic"
        status := textField raw "status"
        startedAt := Json.getField raw "startedAt"
        durationMs := duration }
  | _ => .error ⟨.attributeError, []⟩

end Decoding

section Restore

-- Why a snapshot cannot be restored: the interpreter raises, or a value of
-- another type than a snapshot holds would be stored as it is.
inductive RestoreError
  | raised (error : PyError)
  | illTyped
deriving DecidableEq

def raising {α : Type} (r : Except PyError α) : Except RestoreError α := r.mapError .raised

def asText : Json → Except RestoreError Str
  | .str text => .ok text
  | _ => .error .illTyped

def asOptionalText : Json → Except RestoreError (Option Str)
  | .null => .ok none
  | .str text => .ok (some text)
  | _ => .error .illTyped

def asFields : Json → Except RestoreError Fields
  | .obj fields => .ok fields
  | _ => .error .illTyped

-- `entry.get(key, default)`.
def fieldOr (entry : Json) (key : Str) (default : Json) : Except RestoreError Json :=
  match entry with
  | .obj fields => .ok ((Entries.get? key fields).getD default)
  | _ => .error (.raised ⟨.attributeError, []⟩)

-- `entry[key]`.
def item (entry : Json) (key : Str) : Except RestoreError Json :=
  match entry with
  | .obj fields =>
      match Entries.get? key fields with
      | some value => .ok value
      | none => .error (.raised ⟨.keyError, []⟩)
  | _ => .error (.raised ⟨.typeError, []⟩)

def textList (entry : Json) (key : Str) : Except RestoreError (List Str) := do
  let items ← raising (Json.iter (← fieldOr entry key (.arr [])))
  items.mapM asText

-- A dictionary of dictionaries.
def objectDict (value : Json) : Except RestoreError (Dict Str Fields) := do
  let entries ← asFields value
  let decoded ← entries.mapM fun entry => do return (entry.1, ← asFields entry.2)
  return Dict.ofEntries decoded

variable [UnicodeData]

def restoreInstance (entry : Json) : Except RestoreError (Str × Instance) := do
  let instanceId ← item entry "instanceId"
  return (instanceId.text, {
    healthy := (← fieldOr entry "healthy" (.bool false)).truthy
    registrationHash := ← fieldOr entry "registrationHash" .null
    serviceVersion := ← asOptionalText (← fieldOr entry "serviceVersion" .null)
    healthChecks := ← asFields (← fieldOr entry "healthChecks" (.obj [])) })

def restoreService (entry : Json) : Except RestoreError Service := do
  let name ← item entry "name"
  let instances ← raising (Json.iter (← fieldOr entry "instances" (.arr [])))
  return {
    name := name.text
    registered := (← fieldOr entry "registered" (.bool false)).truthy
    registrationHash := ← asOptionalText (← fieldOr entry "registrationHash" .null)
    previousRegistrationHash :=
      ← asOptionalText (← fieldOr entry "previousRegistrationHash" .null)
    consumed := ← textList entry "consumed"
    produced := ← textList entry "produced"
    known := ← textList entry "known"
    document := ← asFields (← fieldOr entry "document" (.obj []))
    topicSpecs := ← objectDict (← fieldOr entry "topicSpecs" (.obj []))
    previousTopicSpecs := ← objectDict (← fieldOr entry "previousTopicSpecs" (.obj []))
    reportedIssues := (← fieldOr entry "reportedIssues" (.bool false)).truthy
    instances := Dict.ofEntries (← instances.mapM restoreInstance) }

-- A snapshot of another version leaves the catalog as it is. The span index is
-- rebuilt from the events.
def Catalog.restore (c : Catalog) (snapshot : Fields) :
    Except RestoreError Catalog := do
  if !Json.same (Json.getField snapshot "version") (.int snapshotVersion) then return c
  let services ← raising (Json.iter (← fieldOr (.obj snapshot) "services" (.arr [])))
  let records ← services.mapM restoreService
  let topics ← textList (.obj snapshot) "topics"
  let everConsumed ← textList (.obj snapshot) "everConsumed"
  let rawEvents ← raising (Json.iter (← fieldOr (.obj snapshot) "events" (.arr [])))
  let events ← raising (rawEvents.mapM decodeEvent)
  let issues ← objectDict (← fieldOr (.obj snapshot) "issues" (.obj []))
  return {
    services := Dict.ofEntries (records.map fun record => (record.name, record))
    topics := topics.toFinset
    everConsumed := everConsumed.toFinset
    events := events
    spanOwner := Dict.ofEntries (events.map fun event => (event.spanId, event.service))
    issues := issues }

end Restore

end Benzene.Mesh
