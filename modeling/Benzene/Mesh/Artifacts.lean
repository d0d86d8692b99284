import Benzene.Data.JsonText
import Benzene.Mesh.Query

namespace Benzene.Mesh

open Benzene.Data Benzene.Results

-- `a / b` of two integers. The rounding of the quotient is the interpreter's.
class TrueDivision where
  divide : Int → Int → PyFloat

-- A pull source that can name a service's URLs.
structure ServiceEndpoint where
  name : Option Str
  specUrl : Option Str
  healthUrl : Option Str

-- The documents of the mesh UI: six of the fleet, and one of each service.
structure Artifacts where
  manifest : Fields
  topology : Fields
  topics : Fields
  services : Dict Str Fields
  usage : Fields
  asyncapi : Fields
  annotations : Fields
deriving DecidableEq

section Reading

-- The members of a read model, as the projection reads them.
def elements (answer : Fields) (key : Str) : List Fields :=
  match Json.getField answer key with
  | .arr items => items.map asObject
  | _ => []

def asStr : Json → Str
  | .str text => text
  | _ => []

def asInt : Json → Int
  | .int n => n
  | _ => 0

def texts (answer : Fields) (key : Str) : List Str :=
  match Json.getField answer key with
  | .arr items => items.map asStr
  | _ => []

def member (answer : Fields) (key : Str) : Str := asStr (Json.getField answer key)

def count (answer : Fields) (key : Str) : Int := asInt (Json.getField answer key)

end Reading

section Projection

def healthToStatus : List (Str × Str) :=
  [("healthy", "healthy"), ("degraded", "unhealthy"), ("unhealthy", "unhealthy"),
    ("unknown", "unreachable")]

def endpoints (sources : List ServiceEndpoint) : Dict Str (Str × Str) :=
  Dict.ofEntries (sources.filterMap fun source =>
    match source.name, source.specUrl, source.healthUrl with
    | some name, some specUrl, some healthUrl =>
        if name ≠ [] ∧ specUrl ≠ [] ∧ healthUrl ≠ [] then some (name, specUrl, healthUrl) else none
    | _, _, _ => none)

-- A live instance of another hash than the registered one.
def drifted (detail : Fields) : Bool :=
  (elements detail "instances").any fun inst => !(Json.getField inst "hashMatches").truthy

-- The snapshot's services by name, each read as the record it was taken from.
def Catalog.snapshotServices (c : Catalog) : Dict Str Service :=
  Dict.ofEntries (c.services.values.map fun record => (record.name, record))

-- What the service's latest registration, and the one before, say of the topic.
def specOf (services : Dict Str Service) (topic name : Str) : Option Fields :=
  (services.get? name).bind fun entry => entry.topicSpecs.get? topic

def previousSpecOf (services : Dict Str Service) (topic name : Str) : Option Fields :=
  (services.get? name).bind fun entry => entry.previousTopicSpecs.get? topic

def schemaChanged (services : Dict Str Service) (topic consumer : Str) : Bool :=
  match previousSpecOf services topic consumer, specOf services topic consumer with
  | some previous, some current => !Json.same (.obj current) (.obj previous)
  | _, _ => false

def topicChanges (topic : Str) (consumers : List Str) (services : Dict Str Service) : List Json :=
  (consumers.filter fun consumer => schemaChanged services topic consumer).map fun consumer =>
    .obj [Json.field "kind" (.str "schema-changed"),
      Json.field "description"
        (.str (consumer ++ (" changed the contract for " : Str) ++ topic))]

-- The specs the consumers have for the topic, the empty ones left out.
def presentSpecs (services : Dict Str Service) (topic : Str) (consumers : List Str) : List Fields :=
  (consumers.filterMap fun consumer => specOf services topic consumer).filter fun spec => spec ≠ []

def schemaMismatch (present : List Fields) : Bool :=
  (present.drop 1).any fun spec => !Json.same (.obj spec) (.obj (present.head?.getD []))

-- What the services handle now. The rest of what was ever handled is retired.
def currentlyConsumed (services : Dict Str Service) : List Str :=
  services.values.flatMap Service.consumed

def removedTopics (services : Dict Str Service) (everConsumed : Finset Str) : List Str :=
  (everConsumed.sort (· ≤ ·)).filter fun topic => topic ∉ currentlyConsumed services

-- The registered document as JSON text.
def specJson (name : Str) (entry : Service) : Json :=
  if entry.registered then
    .str (Json.dumpsRaw (.obj (if (Entries.get? ("service" : Str) entry.document).isSome
      then entry.document else Entries.set ("service" : Str) (.str name) entry.document)))
  else .null

-- The checks of the instances, the latest wins.
def serviceHealth (detail : Fields) (entry : Service) : Json :=
  .obj [Json.field "isHealthy" (.bool (Json.getField detail "health" = .str "healthy")),
    Json.field "healthChecks" (.obj (entry.instances.values.foldl
      (fun checks inst => Entries.update checks inst.healthChecks) []))]

def usage (events : List Event) (generatedAt : Str) : Fields :=
  let counted := events.map fun event => [event.topic, event.service, event.status]
  let entry (key : List Str) : Json := .obj [Json.field "topic" (.str (key.getD 0 [])),
    Json.field "version" .null, Json.field "service" (.str (key.getD 1 [])),
    Json.field "transport" .null, Json.field "status" (.str (key.getD 2 [])),
    Json.field "count" (.int (counted.count key)), Json.field "avgDurationMs" .null,
    Json.field "source" (.str "collector")]
  [Json.field "generatedAtUtc" (.str generatedAt), Json.field "windowStartUtc" .null,
    Json.field "windowEndUtc" .null,
    Json.field "entries" (.arr (((distinct counted).insertionSort (· ≤ ·)).map entry))]

def annotations (generatedAt : Str) : Fields :=
  [Json.field "generatedAtUtc" (.str generatedAt), Json.field "annotations" (.arr [])]

-- A key that AsyncAPI accepts.
def channelKey (topic : Str) : Str :=
  topic.map fun c => if c = CodePoint.ofChar ':' then CodePoint.ofChar '_' else c

variable [UnicodeData]

def manifestEntry (c : Catalog) (urls : Dict Str (Str × Str)) (entry : Fields) :
    Except CollectorError Json := do
  let name := member entry "service"
  let links := urls.get? name
  let detail ← c.queryService [Json.field "service" (.str name)]
  return .obj [Json.field "name" (.str name),
    Json.field "status"
      (.str ((Entries.get? (member entry "health") healthToStatus).getD "unreachable")),
    Json.field "contractDrift" (.bool (drifted detail)),
    Json.field "specUrl" (optionalJson (links.map Prod.fst)),
    Json.field "healthUrl" (optionalJson (links.map Prod.snd))]

def manifest (c : Catalog) (fleet : Fields) (urls : Dict Str (Str × Str)) (generatedAt : Str) :
    Except CollectorError Fields := do
  let services ← (elements fleet "services").mapM (manifestEntry c urls)
  return [Json.field "generatedAtUtc" (.str generatedAt), Json.field "services" (.arr services)]

-- What a client sent a server over all the topics they share.
structure PairCounts where
  invocations : Int := 0
  errors : Int := 0

def addPair (invocations errors : Int) (pairs : Dict (Str × Str) PairCounts) (pair : Str × Str) :
    Dict (Str × Str) PairCounts :=
  let acc := (pairs.get? pair).getD {}
  pairs.set pair ⟨acc.invocations + invocations, acc.errors + errors⟩

-- A provider is a client of every other service that consumes the topic.
def addTopic (c : Catalog) (pairs : Dict (Str × Str) PairCounts) (entry : Fields) :
    Except CollectorError (Dict (Str × Str) PairCounts) := do
  let detail ← c.queryTopic [Json.field "topic" (.str (member entry "topic"))]
  let edges := (texts detail "providers").flatMap fun client =>
    ((texts detail "consumers").filter fun server => client ≠ server).map fun server =>
      (client, server)
  return edges.foldl (addPair (count detail "invocations") (count detail "errors")) pairs

def topologyEdge [TrueDivision] (edge : (Str × Str) × PairCounts) : Json :=
  .obj [Json.field "client" (.str edge.1.1), Json.field "server" (.str edge.1.2),
    Json.field "source" (.str "collector"), Json.field "requestsPerMinute" .null,
    Json.field "errorRate" (if edge.2.invocations = 0 then .null
      else .float (TrueDivision.divide edge.2.errors edge.2.invocations)),
    Json.field "p50LatencyMs" .null, Json.field "p95LatencyMs" .null,
    Json.field "p99LatencyMs" .null]

def topology [TrueDivision] (c : Catalog) (fleet : Fields) (generatedAt : Str) :
    Except CollectorError Fields := do
  let pairs ← (elements fleet "topics").foldlM (addTopic c) Dict.empty
  let edges := pairs.entries.insertionSort fun a b => [a.1.1, a.1.2] ≤ [b.1.1, b.1.2]
  return [Json.field "generatedAtUtc" (.str generatedAt),
    Json.field "edges" (.arr (edges.map topologyEdge))]

def topicEntry (c : Catalog) (services : Dict Str Service) (entry : Fields) :
    Except CollectorError Json := do
  let topic := member entry "topic"
  let detail ← c.queryTopic [Json.field "topic" (.str topic)]
  let providers := texts detail "providers"
  let consumers := texts detail "consumers"
  let present := presentSpecs services topic consumers
  let representative := present.head?.getD []
  return .obj [Json.field "topic" (.str topic),
    Json.field "version" ((Entries.get? ("version" : Str) representative).getD (.str [])),
    Json.field "reserved" (.bool (isReservedTopic topic)),
    Json.field "consumers" (.arr (consumers.map fun name => .obj [Json.field "service" (.str name)])),
    Json.field "producers" (.arr (providers.map fun name => .obj [Json.field "service" (.str name)])),
    Json.field "status" .null,
    Json.field "requestSchema" (Json.getField representative "requestSchema"),
    Json.field "responseSchema" (Json.getField representative "responseSchema"),
    Json.field "messageSchema" (Json.getField representative "messageSchema"),
    Json.field "schemaMismatch" (.bool (schemaMismatch present)),
    Json.field "changes" (.arr (topicChanges topic consumers services))]

def topics (c : Catalog) (fleet : Fields) (services : Dict Str Service) (everConsumed : Finset Str)
    (generatedAt : Str) : Except CollectorError Fields := do
  let removed := removedTopics services everConsumed
  let active := (elements fleet "topics").filter fun entry => member entry "topic" ∉ removed
  let entries ← active.mapM (topicEntry c services)
  return [Json.field "generatedAtUtc" (.str generatedAt), Json.field "topics" (.arr entries),
    Json.field "removedTopics" (strings removed)]

-- A name the snapshot does not have reads as an entry without members.
def serviceDocument (c : Catalog) (name : Str) (services : Dict Str Service) (generatedAt : Str) :
    Except CollectorError Fields := do
  let detail ← c.queryService [Json.field "service" (.str name)]
  let entry := (services.get? name).getD { name := name }
  return [Json.field "name" (.str name), Json.field "fetchedAtUtc" (.str generatedAt),
    Json.field "specJson" (specJson name entry),
    Json.field "specHash" (optionalJson entry.registrationHash),
    Json.field "previousSpecHash" (optionalJson entry.previousRegistrationHash),
    Json.field "contractDrift" (.bool (drifted detail)),
    Json.field "health" (serviceHealth detail entry), Json.field "error" .null]

-- The channels, the operations and the messages of an AsyncAPI document.
structure Channels where
  channels : Fields := []
  operations : Fields := []
  messages : Fields := []

def operation (action key : Str) : Json :=
  .obj [Json.field "action" (.str action),
    Json.field "channel" (.obj [Json.field "$ref" (.str (("#/channels/" : Str) ++ key))])]

def addChannel (c : Catalog) (services : Dict Str Service) (acc : Channels) (entry : Fields) :
    Except CollectorError Channels := do
  let topic := member entry "topic"
  if isReservedTopic topic then return acc
  let detail ← c.queryTopic [Json.field "topic" (.str topic)]
  let consumers := texts detail "consumers"
  let spec := (presentSpecs services topic consumers).head?.getD []
  let key := channelKey topic
  let messageKey := key ++ ("Message" : Str)
  let payload := Json.orElse (Json.orElse (Json.getField spec "requestSchema")
    (Json.getField spec "responseSchema")) (.obj [Json.field "type" (.str "object")])
  let received := if consumers = [] then acc.operations
    else Entries.set (key ++ ("_receive" : Str)) (operation "receive" key) acc.operations
  return {
    messages := Entries.set messageKey
      (.obj [Json.field "name" (.str topic), Json.field "payload" payload]) acc.messages
    channels := Entries.set key (.obj [Json.field "address" (.str topic),
      Json.field "messages" (.obj [(messageKey,
        .obj [Json.field "$ref" (.str (("#/components/messages/" : Str) ++ messageKey))])])])
      acc.channels
    operations := if texts detail "providers" = [] then received
      else Entries.set (key ++ ("_send" : Str)) (operation "send" key) received }

def asyncapi (c : Catalog) (fleet : Fields) (services : Dict Str Service) (generatedAt : Str) :
    Except CollectorError Fields := do
  let acc ← (elements fleet "topics").foldlM (addChannel c services) {}
  return [Json.field "asyncapi" (.str "3.0.0"),
    Json.field "info" (.obj [Json.field "title" (.str "Benzene Mesh"),
      Json.field "version" (.str "1.0.0"),
      Json.field "description"
        (.str (("Derived from the mesh catalog at " : Str) ++ generatedAt ++ ("." : Str)))]),
    Json.field "channels" (.obj acc.channels), Json.field "operations" (.obj acc.operations),
    Json.field "components" (.obj [Json.field "messages" (.obj acc.messages)])]

-- Projects the catalog into the artifacts of the mesh UI.
def buildArtifacts [Calendar] [TrueDivision] (c : Catalog) (sources : List ServiceEndpoint)
    (generatedAt : Str) : Except CollectorError Artifacts := do
  let fleet ← c.queryFleet
  let services := c.snapshotServices
  let names := (elements fleet "services").map fun entry => member entry "service"
  let manifest ← manifest c fleet (endpoints sources) generatedAt
  let topology ← topology c fleet generatedAt
  let topics ← topics c fleet services c.everConsumed generatedAt
  let documents ← names.mapM fun name => do
    return (name, ← serviceDocument c name services generatedAt)
  let asyncapi ← asyncapi c fleet services generatedAt
  return {
    manifest := manifest
    topology := topology
    topics := topics
    services := Dict.ofEntries documents
    usage := usage c.events generatedAt
    asyncapi := asyncapi
    annotations := annotations generatedAt }

end Projection

section Snapshot

theorem service_name {c : Catalog} (h : ∀ name, (c.serviceOrNew name).name = name) {entry : Str × Service}
    (hentry : entry ∈ c.services.entries) : entry.2.name = entry.1 := by
  have hget := (Dict.mem_entries_iff _ _ _).mp hentry
  have hname := h entry.1
  rw [Catalog.serviceOrNew, hget] at hname
  exact hname

-- Where every service is recorded under its own name, the projection reads the
-- catalog's own services.
theorem snapshotServices_eq {c : Catalog} (h : ∀ name, (c.serviceOrNew name).name = name) :
    c.snapshotServices = c.services := by
  have hentries : c.services.values.map (fun record => (record.name, record)) = c.services.entries := by
    rw [Dict.values, List.map_map]
    conv_rhs => rw [← List.map_id c.services.entries]
    apply List.map_congr_left
    intro entry hentry
    simp only [Function.comp, service_name h hentry, id]
  rw [Catalog.snapshotServices, hentries, Dict.ofEntries_entries]

end Snapshot

end Benzene.Mesh
