import Benzene.Mesh.Ingest

namespace Benzene.Mesh

open Benzene.Data Benzene.Results

-- A `datetime` with an offset: the microseconds since the epoch its own clock
-- shows, and those the clock is ahead of UTC.
structure Moment where
  clock : Int
  offset : Int
deriving DecidableEq

def Moment.utc (m : Moment) : Int := m.clock - m.offset

-- `datetime.min` and `datetime.max`.
def minClock : Int := -62135596800000000

def maxClock : Int := 253402300799999999

-- `instant + timedelta(milliseconds=duration)` of the exact duration, `none` where
-- it overflows.
def Moment.addMilliseconds (m : Moment) (duration : PyFloat) : Option Moment :=
  match duration with
  | .finite d =>
      let clock := m.clock + roundHalfEven (d.toRat * 1000)
      if minClock ≤ clock ∧ clock ≤ maxClock then some ⟨clock, m.offset⟩ else none
  | _ => none

-- `span / timedelta(milliseconds=1)`, the exact quotient.
def inMilliseconds (span : Int) : PyFloat := .finite (Decimal.ofParts span (-3))

-- `datetime.fromisoformat`, a stamp without an offset read as UTC.
class Calendar where
  fromIsoFormat : Str → Option Moment

section Timeline

variable [UnicodeData]

def isDecimalDigit (c : CodePoint) : Bool := (Str.decimalValue c).isSome

-- The first fraction of a second, cut or padded to six digits.
def sixDigitFraction : Str → Str
  | [] => []
  | c :: rest =>
      if c = CodePoint.ofChar '.' ∧ rest.takeWhile isDecimalDigit ≠ [] then
        c :: ((rest.takeWhile isDecimalDigit ++ ("000000" : Str)).take 6 ++
          rest.dropWhile isDecimalDigit)
      else c :: sixDigitFraction rest

def endsWithZulu (text : Str) : Bool :=
  text.getLast? = some (CodePoint.ofChar 'Z') || text.getLast? = some (CodePoint.ofChar 'z')

variable [Calendar]

def instant (startedAt : Json) : Option Moment :=
  match startedAt with
  | .str stamp =>
      if stamp = [] then none
      else
        let text := sixDigitFraction stamp
        Calendar.fromIsoFormat
          (if endsWithZulu text then text.dropLast ++ ("+00:00" : Str) else text)
  | _ => none

-- By start, an unreadable one after every timed one.
def startsNoLater (a b : Event) : Bool :=
  match instant a.startedAt, instant b.startedAt with
  | some s, some t => s.utc ≤ t.utc
  | none, some _ => false
  | _, none => true

def floatMax (x y : PyFloat) : PyFloat :=
  match Json.numeric? (.float x), Json.numeric? (.float y) with
  | some a, some b => if a.lt b then y else x
  | _, _ => x

def longestDuration : List Event → PyFloat
  | [] => .finite (Decimal.ofParts 0 0)
  | event :: rest => rest.foldl (fun longest event => floatMax longest event.durationMs)
      event.durationMs

-- From the earliest start to the latest end, never shorter than one event.
def flowDuration (events : List Event) (started : Option Moment) : PyFloat :=
  match started with
  | none => longestDuration events
  | some start =>
      let finish := events.foldl (fun finish event =>
        match (instant event.startedAt).bind fun m => m.addMilliseconds event.durationMs with
        | some m => max finish m.utc
        | none => finish) start.utc
      floatMax (inMilliseconds (finish - start.utc)) (longestDuration events)

def maxFleetTraces : Nat := 20

def traceSummary (traceId : Str) (events : List Event) : Option Moment × Json :=
  let ordered := events.insertionSort fun a b => startsNoLater a b
  let failing := ordered.filter fun event => !isSuccessful event.status
  let first := ordered.head?
  let started := first.bind fun event => instant event.startedAt
  let status := ((failing ++ ordered).head?.map Event.status).getD []
  (started, .obj ([Json.field "traceId" (.str traceId),
    Json.field "events" (.int events.length),
    Json.field "services" (strings (Str.sorted (distinct
      ((events.map Event.service).filter fun name => name ≠ [])))),
    Json.field "failed" (.bool (!failing.isEmpty)),
    Json.field "startedAt" (match started, first with
      | some _, some event => event.startedAt
      | _, _ => .str []),
    Json.field "durationMs" (.float (flowDuration events started))] ++
    if status = [] then [] else [Json.field "status" (.str status)]))

-- `pair[0] or _EPOCH`
def startKey (pair : Option Moment × Json) : Int := (pair.1.map Moment.utc).getD 0

-- The recent flows, newest first, those without a known start last.
def Catalog.traceSummaries (c : Catalog) : List Json :=
  let summaries := (distinct (c.events.map Event.traceId)).map fun traceId =>
    traceSummary traceId (c.events.filter fun event => event.traceId = traceId)
  let timed := (summaries.filter fun summary => summary.1.isSome).insertionSort
    fun a b => startKey b ≤ startKey a
  let untimed := summaries.filter fun summary => summary.1.isNone
  ((timed ++ untimed).take maxFleetTraces).map Prod.snd

end Timeline

section Derivation

def Catalog.invocationsOn (c : Catalog) (topic : Str) : Nat :=
  c.events.countP fun event => event.topic = topic

def Catalog.invocationsBy (c : Catalog) (name : Str) : Nat :=
  c.events.countP fun event => event.service = name

def Service.health (record : Service) : Str :=
  let healths := record.instances.values.map Instance.healthy
  if healths = [] then "unknown"
  else if healths.all id then "healthy"
  else if healths.any id then "degraded"
  else "unhealthy"

-- `issues` is missing only when a failure needs explaining.
def Catalog.missingFeeds (c : Catalog) (record : Service) : List Str :=
  let hasFailure := c.events.any fun event =>
    event.service = record.name && !isSuccessful event.status
  (if record.registered then [] else [("descriptor" : Str)]) ++
  (if record.instances.entries = [] then [("health" : Str)] else []) ++
  (if 0 < c.invocationsBy record.name then [] else [("traces" : Str)]) ++
  (if record.reportedIssues || !hasFailure then [] else [("issues" : Str)])

def Catalog.fleetServiceEntry (c : Catalog) (record : Service) : Json :=
  .obj ([Json.field "service" (.str record.name), Json.field "topics" (.int record.consumed.length),
    Json.field "health" (.str record.health),
    Json.field "missingFeeds" (strings (c.missingFeeds record))] ++
    if record.instances.entries = [] then []
    else [Json.field "instances" (.int record.instances.entries.length)])

-- `None` stands for a service that was observed without a timestamp.
def noteObserved (observed : Dict Str Json) (name : Str) (startedAt : Json) :
    Except PyError (Dict Str Json) := do
  let current := (observed.get? name).getD .null
  let newer ← if !startedAt.truthy then pure false
    else if current = .null then pure true
    else Json.lt current startedAt
  return if newer then observed.set name startedAt
    else if (observed.get? name).isSome then observed else observed.set name .null

-- Every service traced handling the topic.
def Catalog.observedHandlers (c : Catalog) (topic : Str) : Except PyError (Dict Str Json) :=
  (c.events.filter fun event => event.topic = topic).foldlM
    (fun observed event => noteObserved observed event.service event.startedAt) Dict.empty

-- Every service whose span parented a call to the topic by another service.
def Catalog.observedCallers (c : Catalog) (topic : Str) : Except PyError (Dict Str Json) :=
  (c.events.filter fun event => event.topic = topic).foldlM
    (fun observed event => do
      let caller ← callerName c.spanOwner event.parentSpanId
      if caller ≠ [] ∧ caller ≠ event.service
      then noteObserved observed caller event.startedAt else return observed) Dict.empty

-- A declared edge with no known observation gets `{}`.
def edgeActivity (observed : Dict Str Json) (declared : List Str) : Json :=
  .obj (declared.map fun name =>
    let last := (observed.get? name).getD .null
    (name, .obj (if last.truthy then [Json.field "lastObservedAt" last] else [])))

-- The activity is derived only where an edge is declared.
def activityMember (key : Str) (observed : Except PyError (Dict Str Json)) (declared : List Str) :
    Except CollectorError Fields :=
  if declared = [] then .ok []
  else match observed with
    | .ok observed => .ok [(key, edgeActivity observed declared)]
    | .error error => .error (.raised error)

end Derivation

section Queries

variable [UnicodeData]

def notFound (what name : Str) : CollectorError :=
  .notFound (("No " : Str) ++ what ++ (" " : Str) ++ Str.repr name ++ (" in the catalog" : Str))

def Catalog.queryFleet [Calendar] (c : Catalog) : Except CollectorError Fields :=
  .ok [Json.field "services" (.arr (c.services.values.map c.fleetServiceEntry)),
    Json.field "topics" (.arr ((c.topics.sort (· ≤ ·)).map fun topic =>
      .obj [Json.field "topic" (.str topic), Json.field "consumers" (strings (c.consumersOf topic)),
        Json.field "invocations" (.int (c.invocationsOn topic))])),
    Json.field "traces" (.arr c.traceSummaries),
    Json.field "issues" (.arr (c.issues.values.map .obj))]

def Catalog.queryService (c : Catalog) (body : Fields) : Except CollectorError Fields := do
  let name ← require body "service"
  match c.services.get? name with
  | none => .error (notFound "service" name)
  | some record =>
      let instances := record.instances.entries.map fun entry =>
        Json.obj [Json.field "instanceId" (.str entry.1),
          Json.field "healthy" (.bool entry.2.healthy),
          Json.field "hashMatches"
            (.bool (entry.2.registrationHash = optionalJson record.registrationHash))]
      let missing := c.missingFeeds record
      return [Json.field "service" (.str name)] ++
        (if instances = [] then []
          else [Json.field "health" (.str record.health), Json.field "instances" (.arr instances)]) ++
        (if c.invocationsBy name = 0 then []
          else [Json.field "invocations" (.int (c.invocationsBy name))]) ++
        (if missing = [] then [] else [Json.field "missingFeeds" (strings missing)])

def Catalog.queryTopic (c : Catalog) (body : Fields) : Except CollectorError Fields := do
  let topic ← require body "topic"
  if topic ∉ c.topics then .error (notFound "topic" topic)
  else
    let events := c.events.filter fun event => event.topic = topic
    let statuses := events.map Event.status
    let providers := c.providersOf topic
    let consumers := c.consumersOf topic
    let counts := if events = [] then [] else
      [Json.field "errors" (.int (events.countP fun event => !isSuccessful event.status)),
        Json.field "statusCounts" (.obj ((distinct statuses).map fun status =>
          (status, .int (statuses.count status))))]
    let providerActivity ← activityMember "providerActivity" (c.observedCallers topic) providers
    let consumerActivity ← activityMember "consumerActivity" (c.observedHandlers topic) consumers
    return [Json.field "topic" (.str topic), Json.field "providers" (strings providers),
      Json.field "consumers" (strings consumers), Json.field "invocations" (.int events.length)] ++
      counts ++ providerActivity ++ consumerActivity

def Catalog.queryTrace (c : Catalog) (body : Fields) : Except CollectorError Fields := do
  let traceId ← require body "traceId"
  let events := c.events.filter fun event => event.traceId = traceId
  if events = [] then .error (notFound "trace" traceId)
  else return [Json.field "traceId" (.str traceId),
    Json.field "events" (.arr (events.map fun event =>
      .obj [Json.field "spanId" (.str event.spanId), Json.field "service" (.str event.service)]))]

-- The four read models.
inductive Query
  | fleet
  | service
  | topic
  | trace
deriving DecidableEq

def Catalog.query [Calendar] (c : Catalog) (kind : Query) (body : Fields) :
    Except CollectorError Fields :=
  match kind with
  | .fleet => c.queryFleet
  | .service => c.queryService body
  | .topic => c.queryTopic body
  | .trace => c.queryTrace body

end Queries

end Benzene.Mesh
