import Benzene.Mesh.Catalog
import Benzene.Mesh.Issues

namespace Benzene.Mesh

open Benzene.Data Benzene.Results

-- What an ingest or a query ends with instead of a reply: the collector's own
-- refusals, or an error of the interpreter that nothing catches.
inductive CollectorError
  | badRequest (message : Str)
  | notFound (message : Str)
  | raised (error : PyError)
deriving DecidableEq

-- An ingest works on the catalog in place, a merge on its issues alone.
abbrev Ingest := Py CollectorError Catalog

abbrev Merge := Py PyError (Dict Str Fields)

def raises {α : Type} (r : Except PyError α) : Except CollectorError α := r.mapError .raised

theorem raises_ok_iff {α : Type} {r : Except PyError α} {a : α} : raises r = .ok a ↔ r = .ok a := by
  cases r <;> simp [raises, Except.mapError]

def onIssues {α : Type} (x : Merge α) : Ingest α := fun c =>
  match x c.issues with
  | (outcome, issues) => (raises outcome, { c with issues := issues })

theorem onIssues_apply {α : Type} (x : Merge α) (c : Catalog) :
    onIssues x c = (raises (x c.issues).1, { c with issues := (x c.issues).2 }) := rfl

section Helpers

variable [UnicodeData]

def require (body : Fields) (key : Str) : Except CollectorError Str :=
  let value := Json.getField body key
  if value.truthy then .ok value.text
  else .error (.badRequest (Str.repr key ++ (" is required" : Str)))

-- `int(value)`, with garbage read as 0. The overflow of an infinite float is
-- not among what is read as 0.
def safeInt (value : Json) : Except PyError Int :=
  match value with
  | .bool b => .ok (if b then 1 else 0)
  | .int n => .ok n
  | .float x =>
      match x.truncate with
      | .ok n => .ok n
      | .error error => if error.kind = .valueError then .ok 0 else .error error
  | .str text => .ok ((Str.toInt? text).getD 0)
  | _ => .ok 0

-- The version and the non-empty schemas of a `requests` entry.
def topicSpec (entry catalogue : Fields) : Fields :=
  let schemaMember (member key : Str) : Fields :=
    let schema := resolveSchema (Json.getField entry member) catalogue
    if schema.truthy then [(key, schema)] else []
  let version := Json.getField entry "version"
  (if version.truthy then [Json.field "version" (.str version.text)] else []) ++
    schemaMember "request" "requestSchema" ++ schemaMember "response" "responseSchema"

end Helpers

section Merging

variable [UnicodeData]

def maxExemplars : Nat := 3

-- The last `maxExemplars` of them.
def newest (exemplars : List Json) : List Json := exemplars.drop (exemplars.length - maxExemplars)

-- The fields a merge aggregates; every other field is the latest one.
def aggregatedIssueFields : List Str :=
  ["count", "errors", "exemplarTraceIds", "firstSeen", "lastSeen"].map Str.ofString

def mergeErrorDetail (merged : Fields) (incoming : Json) : Fields :=
  let combined := mergeIssueErrors (decodeIssueErrors (Json.getField merged "errors"))
    (decodeIssueErrors incoming)
  if combined = [] then Entries.erase ("errors" : Str) merged
  else Entries.set ("errors" : Str) (.arr (combined.map IssueError.toPayload)) merged

def countOf (issue : Fields) : Json := (Entries.get? ("count" : Str) issue).getD (.int 0)

def incomingExemplars (issue : Fields) : Except PyError (List Json) :=
  Json.iter ((Entries.get? ("exemplarTraceIds" : Str) issue).getD (.arr []))

-- `existing["exemplarTraceIds"] + [...]`.
def heldExemplars (existing : Fields) : Except PyError (List Json) :=
  match Entries.get? ("exemplarTraceIds" : Str) existing with
  | some (.arr held) => .ok held
  | some _ => .error ⟨.typeError, []⟩
  | none => .error ⟨.keyError, []⟩

-- The record of an issue that is met for the first time.
def newIssue (issue : Fields) (exemplars : List Json) : Except PyError Fields := do
  let count ← safeInt (countOf issue)
  let merged := Entries.set ("exemplarTraceIds" : Str) (.arr (newest exemplars))
    (Entries.set ("count" : Str) (.int count) issue)
  return mergeErrorDetail (Entries.erase ("errors" : Str) merged) (Json.getField issue "errors")

def overwrite (existing issue : Fields) : Fields :=
  Entries.update existing (issue.filter fun entry => entry.1 ∉ aggregatedIssueFields)

-- `firstSeen` and `lastSeen` widen to the incoming timestamp, if there is one.
def widen (pick : Json → Json → Except PyError Json) (key : Str) (issue : Fields) :
    Py PyError Fields Unit := fun existing =>
  match Json.getField issue key with
  | .null => (.ok (), existing)
  | seen =>
      match pick (Json.orElse (Json.getField existing key) seen) seen with
      | .ok value => (.ok (), Entries.set key value existing)
      | .error error => (.error error, existing)

-- The merge into a held record, in place: what was written before an error stays.
def mergeExisting (issue : Fields) (exemplars : List Json) : Py PyError Fields Unit := do
  Py.modify fun existing => overwrite existing issue
  let existing ← Py.get
  let count ← Py.lift (safeInt (countOf existing))
  let delta ← Py.lift (safeInt (countOf issue))
  Py.modify (Entries.set ("count" : Str) (.int (count + delta)))
  let held ← Py.lift (heldExemplars existing)
  let fresh := exemplars.filter fun traceId => !held.any (Json.same traceId)
  Py.modify (Entries.set ("exemplarTraceIds" : Str) (.arr (newest (held ++ fresh))))
  Py.modify fun existing => mergeErrorDetail existing (Json.getField issue "errors")
  widen Json.min "firstSeen" issue
  widen Json.max "lastSeen" issue

def mergeIssue (fingerprint : Str) (issue : Fields) : Merge Unit := do
  let exemplars ← Py.lift (incomingExemplars issue)
  let issues ← Py.get
  match issues.get? fingerprint with
  | none =>
      let merged ← Py.lift (newIssue issue exemplars)
      Py.modify fun issues => issues.set fingerprint merged
  | some existing =>
      let (outcome, merged) := mergeExisting issue exemplars existing
      Py.modify fun issues => issues.set fingerprint merged
      Py.lift outcome

-- One entry of an issues batch: how many issues it merged. An entry without a
-- fingerprint is skipped.
def ingestIssue (raw : Json) : Merge Nat := do
  let fingerprint ← Py.lift (raw.get "fingerprint")
  if fingerprint.truthy then
    mergeIssue fingerprint.text (asObject raw)
    return 1
  else return 0

end Merging

section Ingests

def driftIssue (name topic traceId fingerprint : Str) : Fields :=
  [Json.field "fingerprint" (.str fingerprint),
    Json.field "classification" (.str Classification.contractDrift.text),
    Json.field "service" (.str name), Json.field "topic" (.str topic),
    Json.field "status" (.str []), Json.field "count" (.int 1),
    Json.field "exemplarTraceIds" (.arr (if traceId = [] then [] else [.str traceId]))]

def driftFingerprint (name topic : Str) : Except PyError Str :=
  issueFingerprint name topic [] Classification.contractDrift.text "undeclared-edge"

theorem driftFingerprint_ok_iff {name topic : Str} :
    (∃ fingerprint, driftFingerprint name topic = .ok fingerprint) ↔
      Str.Encodable name ∧ Str.Encodable topic := by
  have hnil : Str.Encodable [] := by simp [Str.Encodable]
  have hclass : Str.Encodable Classification.contractDrift.text := Str.encodable_ofString _
  rw [driftFingerprint, issueFingerprint_ok_iff, encodable_fingerprintText]
  simp only [hnil, hclass, Str.encodable_ofString, and_true]

-- A service that never registered has nothing to diverge from, and a reserved
-- topic is never declared.
def isUndeclared (record : Service) (topic : Str) (declared : List Str) : Bool :=
  record.registered && topic ∉ declared && !isReservedTopic topic

-- The service gets a blank record where the catalog has none.
def service (name : Str) : Ingest Unit :=
  Py.modify fun c => c.setService name (c.serviceOrNew name)

def updateService (name : Str) (f : Service → Service) : Ingest Unit :=
  Py.modify fun c => c.setService name (f (c.serviceOrNew name))

variable [UnicodeData]

-- The record after a registration, which replaces the one before wholesale.
def Service.registering (record : Service) (body : Fields) : Service :=
  let newHash := Json.getField body "registrationHash"
  { record with
    previousRegistrationHash :=
      match record.registrationHash with
      | some held =>
          if record.registered ∧ held ≠ [] ∧ newHash ≠ .str held then some held
          else record.previousRegistrationHash
      | none => record.previousRegistrationHash
    known := Str.sorted ((knownMembers body).map Member.key)
    consumed := specTopicIds body [.requests]
    produced := specTopicIds body [.events, .sends]
    previousTopicSpecs := record.topicSpecs
    topicSpecs := Dict.ofEntries ((specEntries body .requests).map fun entry =>
      (entryTopic entry, topicSpec entry (schemaCatalogue body)))
    document := body
    registered := true
    registrationHash := if newHash.truthy then some newHash.text else none }

def Catalog.register (c : Catalog) (name : Str) (body : Fields) : Catalog :=
  let record := (c.serviceOrNew name).registering body
  { c.setService name record with
    topics := c.topics ∪ record.consumed.toFinset ∪ record.produced.toFinset
    everConsumed := c.everConsumed ∪ record.consumed.toFinset }

def ingestRegister (body : Fields) : Ingest Nat := do
  let name ← Py.lift (require body "service")
  Py.modify fun c => c.register name body
  return 1

theorem ingestRegister_apply (body : Fields) (c : Catalog) :
    ingestRegister body c =
      match require body "service" with
      | .ok name => (.ok 1, c.register name body)
      | .error error => (.error error, c) := by
  unfold ingestRegister
  cases h : require body "service" <;> simp [Py.bind_apply]

theorem serviceOrNew_register (c : Catalog) (name other : Str) (body : Fields) :
    (c.register name body).serviceOrNew other =
      if name = other then (c.serviceOrNew name).registering body else c.serviceOrNew other :=
  c.serviceOrNew_setService name other _

def ingestHeartbeat (body : Fields) : Ingest Nat := do
  let name ← Py.lift (require body "service")
  service name
  let health := Json.orElse (Json.getField body "health") (.obj [])
  let checks ← Py.lift (raises (health.get "healthChecks"))
  let healthy ← Py.lift (raises (health.get "isHealthy"))
  let version := Json.getField body "serviceVersion"
  updateService name fun record => { record with
    instances := record.instances.set (textField body "instanceId") {
      healthy := healthy.truthy
      registrationHash := Json.getField body "registrationHash"
      serviceVersion := if version.truthy then some version.text else none
      healthChecks := asObject checks } }
  return 1

def fileDrift (name topic traceId : Str) : Merge Unit := do
  let fingerprint ← Py.lift (driftFingerprint name topic)
  mergeIssue fingerprint (driftIssue name topic traceId fingerprint)

def flagDriftIfUndeclared (record : Service) (topic : Str) (declared : List Str) (traceId : Str) :
    Merge Unit :=
  if isUndeclared record topic declared then fileDrift record.name topic traceId else return ()

-- The owner of the parent span; a parent that cannot be a dictionary key raises.
def callerName (owners : Dict Str Str) (parent : Json) : Except PyError Str :=
  if !parent.truthy then .ok []
  else if !parent.hashable then .error ⟨.typeError, []⟩
  else match parent with
    | .str span => .ok ((owners.get? span).getD [])
    | _ => .ok []

def consumerKnown (record : Service) : Bool := Member.requests.key ∈ record.known

-- Only a caller that asserted its events and its sends has a provider side to
-- diverge from.
def providerKnown (record : Service) : Bool :=
  Member.events.key ∈ record.known && Member.sends.key ∈ record.known

def flagConsumer (record : Service) (topic traceId : Str) : Merge Unit :=
  if consumerKnown record then flagDriftIfUndeclared record topic record.consumed traceId
  else return ()

def flagProvider (record : Service) (topic traceId : Str) : Merge Unit :=
  if providerKnown record then flagDriftIfUndeclared record topic record.produced traceId
  else return ()

-- The drift a just observed event shows, on its own service and on its caller.
def Catalog.flagDrift (c : Catalog) (event : Event) : Merge Unit := do
  flagConsumer (c.serviceOrNew event.service) event.topic event.traceId
  let caller ← Py.lift (callerName c.spanOwner event.parentSpanId)
  if caller ≠ [] ∧ caller ≠ event.service then
    match c.services.get? caller with
    | some record => flagProvider record event.topic event.traceId
    | none => return ()

-- A caller the catalog does not have reads as a blank record, which is never flagged.
theorem flagDrift_eq (c : Catalog) (event : Event) :
    c.flagDrift event = (do
      flagConsumer (c.serviceOrNew event.service) event.topic event.traceId
      let caller ← Py.lift (callerName c.spanOwner event.parentSpanId)
      if caller ≠ [] ∧ caller ≠ event.service then
        flagProvider (c.serviceOrNew caller) event.topic event.traceId) := by
  unfold Catalog.flagDrift
  congr 1
  funext _
  congr 1
  funext caller
  unfold Catalog.serviceOrNew
  cases c.services.get? caller <;> simp [flagProvider, providerKnown]

-- The edges a trace can show as drift, on the serving and the sending side.
def consumerDrift (record : Service) (topic : Str) : Bool :=
  consumerKnown record && isUndeclared record topic record.consumed

def providerDrift (record : Service) (topic : Str) : Bool :=
  providerKnown record && isUndeclared record topic record.produced

theorem flagConsumer_eq (record : Service) (topic traceId : Str) :
    flagConsumer record topic traceId =
      if consumerDrift record topic then fileDrift record.name topic traceId else pure () := by
  unfold flagConsumer consumerDrift flagDriftIfUndeclared
  cases consumerKnown record <;> simp

theorem flagProvider_eq (record : Service) (topic traceId : Str) :
    flagProvider record topic traceId =
      if providerDrift record topic then fileDrift record.name topic traceId else pure () := by
  unfold flagProvider providerDrift flagDriftIfUndeclared
  cases providerKnown record <;> simp

def ingestEvent (raw : Json) : Ingest Unit := do
  let event ← Py.lift (raises (decodeEvent raw))
  Py.modify fun c => c.observe event
  let c ← Py.get
  onIssues (c.flagDrift event)

theorem ingestEvent_error {raw : Json} {error : PyError} (h : decodeEvent raw = .error error)
    (c : Catalog) : ingestEvent raw c = (.error (.raised error), c) := by
  simp [ingestEvent, Py.bind_apply, h, raises, Except.mapError]

theorem ingestEvent_ok {raw : Json} {event : Event} (h : decodeEvent raw = .ok event)
    (c : Catalog) :
    ingestEvent raw c =
      (raises ((c.observe event).flagDrift event c.issues).1,
        { c.observe event with issues := ((c.observe event).flagDrift event c.issues).2 }) := by
  simp only [ingestEvent, Py.bind_apply, h, raises, Except.mapError, Py.lift_apply,
    Py.modify_apply, Py.get_apply, onIssues_apply]
  rfl

def ingestTraces (body : Fields) : Ingest Nat := do
  let events ← Py.lift (raises (Json.iter (Json.orElse (Json.getField body "events") (.arr []))))
  let _ ← Py.mapEach ingestEvent events
  return events.length

-- Even an empty batch says that the feed is alive.
def ingestIssues (body : Fields) : Ingest Nat := do
  let name ← Py.lift (require body "service")
  updateService name fun record => { record with reportedIssues := true }
  let issues ← Py.lift (raises (Json.iter (Json.orElse (Json.getField body "issues") (.arr []))))
  let merged ← onIssues (Py.mapEach ingestIssue issues)
  return merged.sum

end Ingests

section Collector

-- The four feeds.
inductive Feed
  | register
  | heartbeat
  | traces
  | issues
deriving DecidableEq

-- The catalog, and the snapshot the store was last given.
structure Collector where
  catalog : Catalog
  saved : Option Fields

-- One body posted to one feed.
structure Post where
  feed : Feed
  body : Fields

def Collector.empty : Collector := ⟨Catalog.empty, none⟩

variable [UnicodeData]

def Feed.ingest : Feed → Fields → Ingest Nat
  | .register => ingestRegister
  | .heartbeat => ingestHeartbeat
  | .traces => ingestTraces
  | .issues => ingestIssues

-- An ingest that returns has written the catalog through the store.
def Collector.ingest (collector : Collector) (post : Post) :
    Except CollectorError Nat × Collector :=
  match post.feed.ingest post.body collector.catalog with
  | (.ok accepted, catalog) => (.ok accepted, ⟨catalog, some catalog.snapshot⟩)
  | (.error error, catalog) => (.error error, ⟨catalog, collector.saved⟩)

-- What an ingest makes of the catalog, however it ends.
def Catalog.ingest (c : Catalog) (post : Post) : Catalog := (post.feed.ingest post.body c).2

def Catalog.run (c : Catalog) (posts : List Post) : Catalog := posts.foldl Catalog.ingest c

@[simp] theorem Collector.ingest_catalog (collector : Collector) (post : Post) :
    (collector.ingest post).2.catalog = collector.catalog.ingest post := by
  unfold Collector.ingest Catalog.ingest
  split <;> rename_i h <;> rw [h]

def Collector.run (collector : Collector) (posts : List Post) : Collector :=
  posts.foldl (fun collector post => (collector.ingest post).2) collector

theorem Collector.run_catalog (collector : Collector) (posts : List Post) :
    (collector.run posts).catalog = collector.catalog.run posts := by
  induction posts generalizing collector with
  | nil => rfl
  | cons post posts ih =>
      have hrest := ih (collector.ingest post).2
      rw [Collector.ingest_catalog] at hrest
      exact hrest

end Collector

end Benzene.Mesh
