import Benzene.Data.Sha256
import Benzene.Results.Result
import Mathlib.Data.Prod.Lex

namespace Benzene.Mesh

open Benzene.Data Benzene.Results

-- The closed classification vocabulary.
inductive Classification
  | exception
  | validation
  | configWiring
  | dependency
  | contractDrift
  | unclassified
deriving DecidableEq

def Classification.text : Classification → Str
  | .exception => "exception"
  | .validation => "validation"
  | .configWiring => "config-wiring"
  | .dependency => "dependency"
  | .contractDrift => "contract-drift"
  | .unclassified => "unclassified"

-- `value or fallback` of an optional string.
def textOr (value : Option Str) (fallback : Str) : Str :=
  match value with
  | some text => if text = [] then fallback else text
  | none => fallback

def classify (status : Str) (exceptionType : Option Str) : Classification :=
  if status = Status.badRequest ∨ status = Status.validationError then .validation
  else if textOr exceptionType [] ≠ [] then .exception
  else if status = Status.notFound ∨ status = Status.unauthorized ∨ status = Status.forbidden ∨
      status = Status.notImplemented ∨ status = [] then .configWiring
  else if status = Status.serviceUnavailable ∨ status = Status.timeout ∨
      status = Status.tooManyRequests then .dependency
  else if status = Status.unexpectedError then .exception
  else .unclassified

-- The text a signature is hashed from.
def fingerprintText (service topic version classification discriminator : Str) : Str :=
  Str.join "|" [service, topic, version, classification, discriminator]

def hexBytes (bytes : List UInt8) : Str := bytes.flatMap fun byte => Str.hexFixed 2 byte.toNat

-- A lone surrogate in the text cannot be encoded for the hash.
def issueFingerprint (service topic version classification discriminator : Str) :
    Except PyError Str :=
  match Str.utf8Encode (fingerprintText service topic version classification discriminator) with
  | some bytes => .ok (hexBytes ((Sha256.digest bytes).take 16))
  | none => .error ⟨.unicodeEncodeError, []⟩

theorem hexFixed_length (width n : Nat) : (Str.hexFixed width n).length = width := by
  induction width generalizing n with
  | zero => rfl
  | succ width ih => simp [Str.hexFixed, ih]

-- Thirty-two hexadecimal digits.
theorem issueFingerprint_length {service topic version classification discriminator fingerprint : Str}
    (h : issueFingerprint service topic version classification discriminator = .ok fingerprint) :
    fingerprint.length = 32 := by
  unfold issueFingerprint at h
  split at h
  · cases h
    simp [hexBytes, List.length_flatMap, hexFixed_length, Sha256.digest_length]
  · cases h

theorem encodable_fingerprintText {service topic version classification discriminator : Str} :
    Str.Encodable (fingerprintText service topic version classification discriminator) ↔
      Str.Encodable service ∧ Str.Encodable topic ∧ Str.Encodable version ∧
        Str.Encodable classification ∧ Str.Encodable discriminator := by
  simp only [fingerprintText, Str.join, Str.encodable_append, Str.encodable_ofString, and_true]

theorem issueFingerprint_ok_iff {service topic version classification discriminator : Str} :
    (∃ fingerprint,
        issueFingerprint service topic version classification discriminator = .ok fingerprint) ↔
      Str.Encodable (fingerprintText service topic version classification discriminator) := by
  rw [← Str.utf8Encode_isSome]
  unfold issueFingerprint
  split <;> simp [*]

-- One entry of an issue's error detail, identified by its field and code.
structure IssueError where
  field : Option Str
  code : Option Str
  count : Int
deriving DecidableEq

namespace IssueError

def toPayload (entry : IssueError) : Json :=
  .obj (Json.optionalField "field" entry.field ++ Json.optionalField "code" entry.code ++
    [Json.field "count" (.int entry.count)])

-- Count descending, then field, then code, an absent member first.
def order (entry : IssueError) : Lex (Int × Lex (Bool × Lex (Str × Lex (Bool × Str)))) :=
  toLex (-entry.count, toLex (entry.field.isSome, toLex (entry.field.getD [],
    toLex (entry.code.isSome, entry.code.getD []))))

end IssueError

def maxIssueErrors : Nat := 10

def maxPendingIssueErrors : Nat := 100

-- `""` is an absent member.
def presentText (value : Option Str) : Option Str := value.filter fun text => text ≠ []

-- One more entry in the running counts.
def addIssueError (counts : List ((Option Str × Option Str) × Int)) (entry : IssueError) :
    List ((Option Str × Option Str) × Int) :=
  let key := (presentText entry.field, presentText entry.code)
  if key = (none, none) then counts
  else Entries.set key ((Entries.get? key counts).getD 0 + entry.count) counts

def mergeIssueErrors (existing delta : List IssueError) : List IssueError :=
  let counts := (existing ++ delta).foldl addIssueError []
  let merged := (counts.map fun entry => IssueError.mk entry.1.1 entry.1.2 entry.2).insertionSort
    fun a b => a.order ≤ b.order
  merged.take maxIssueErrors

-- A member that is a string or absent.
def optionalText : Json → Option (Option Str)
  | .null => some none
  | .str text => some (presentText (some text))
  | _ => none

def decodeIssueError : Json → Option IssueError
  | .obj item =>
      match Json.getField item "count" with
      | .int count =>
          if count ≤ 0 then none
          else
            match optionalText (Json.getField item "field"),
              optionalText (Json.getField item "code") with
            | some field, some code =>
                if field = none ∧ code = none then none else some ⟨field, code, count⟩
            | _, _ => none
      | _ => none
  | _ => none

-- The valid entries of a wire `errors` member; any other member is no detail.
def decodeIssueErrors : Json → List IssueError
  | .arr items => items.filterMap decodeIssueError
  | _ => []

structure Issue where
  fingerprint : Str
  classification : Classification
  service : Str
  topic : Str
  status : Str
  version : Str
  transport : Option Str
  exceptionType : Option Str
  count : Int
  firstSeen : Option Str
  lastSeen : Option Str
  exemplarTraceIds : List Str
  resolutionHint : Option Str
  errors : List IssueError
deriving DecidableEq

namespace Issue

def toPayload (issue : Issue) : Fields :=
  [Json.field "fingerprint" (.str issue.fingerprint),
    Json.field "classification" (.str issue.classification.text),
    Json.field "service" (.str issue.service), Json.field "topic" (.str issue.topic),
    Json.field "status" (.str issue.status), Json.field "count" (.int issue.count)] ++
  Json.fieldIf (issue.version ≠ []) "version" (.str issue.version) ++
  Json.optionalField "transport" issue.transport ++
  Json.optionalField "exceptionType" issue.exceptionType ++
  Json.optionalField "firstSeen" issue.firstSeen ++
  Json.optionalField "lastSeen" issue.lastSeen ++
  Json.optionalField "resolutionHint" issue.resolutionHint ++
  Json.fieldIf (issue.exemplarTraceIds ≠ []) "exemplarTraceIds"
    (.arr (issue.exemplarTraceIds.map .str)) ++
  Json.fieldIf (issue.errors ≠ []) "errors" (.arr (issue.errors.map IssueError.toPayload))

end Issue

structure IssueBatch where
  service : Str
  issues : List Issue

def IssueBatch.toPayload (batch : IssueBatch) : Fields :=
  [Json.field "service" (.str batch.service),
    Json.field "issues" (.arr (batch.issues.map fun issue => .obj issue.toPayload))]

-- The running issues of one flush window, and the error pairs counted for each.
structure IssueAggregator where
  service : Str
  issues : Dict Str Issue
  errors : Dict Str (List ((Option Str × Option Str) × Int))

-- The keyword arguments of one `record` call. `now` is what the clock reads.
structure Occurrence where
  topic : Str
  status : Str
  version : Str
  transport : Option Str
  exceptionType : Option Str
  traceId : Option Str
  resolutionHint : Option Str
  at_ : Option Str
  errors : List ErrorLike
  now : Str

def maxAggregatedExemplars : Nat := 5

namespace IssueAggregator

def new (service : Str) : IssueAggregator := ⟨service, Dict.empty, Dict.empty⟩

def countError [UnicodeData] (pending : List ((Option Str × Option Str) × Int))
    (error : ErrorLike) : List ((Option Str × Option Str) × Int) :=
  let coerced := BenzeneError.coerce error
  let pair := (presentText coerced.field, presentText coerced.code)
  if pair = (none, none) then pending
  else if (Entries.get? pair pending).isSome ∨ pending.length < maxPendingIssueErrors then
    Entries.set pair ((Entries.get? pair pending).getD 0 + 1) pending
  else pending

def occurrenceFingerprint (service : Str) (occurrence : Occurrence) : Except PyError Str :=
  issueFingerprint service occurrence.topic occurrence.version
    (classify occurrence.status occurrence.exceptionType).text
    (textOr occurrence.exceptionType occurrence.status)

-- The issue a first occurrence opens, before it is counted.
def opened (service fingerprint seen : Str) (occurrence : Occurrence) : Issue where
  fingerprint := fingerprint
  classification := classify occurrence.status occurrence.exceptionType
  service := service
  topic := occurrence.topic
  status := occurrence.status
  version := occurrence.version
  transport := occurrence.transport
  exceptionType := occurrence.exceptionType
  count := 0
  firstSeen := some seen
  lastSeen := some seen
  exemplarTraceIds := []
  resolutionHint := occurrence.resolutionHint
  errors := []

def record [UnicodeData] (aggregator : IssueAggregator) (occurrence : Occurrence) :
    Except PyError (Issue × IssueAggregator) := do
  let fingerprint ← occurrenceFingerprint aggregator.service occurrence
  let seen := textOr occurrence.at_ occurrence.now
  let issue := (aggregator.issues.get? fingerprint).getD
    (opened aggregator.service fingerprint seen occurrence)
  let traceId := textOr occurrence.traceId []
  let exemplars :=
    if traceId ≠ [] ∧ issue.exemplarTraceIds.length < maxAggregatedExemplars
    then issue.exemplarTraceIds ++ [traceId] else issue.exemplarTraceIds
  let counted := { issue with
    count := issue.count + 1, lastSeen := some seen, exemplarTraceIds := exemplars }
  let pending := (aggregator.errors.get? fingerprint).getD []
  return (counted, { aggregator with
    issues := aggregator.issues.set fingerprint counted
    errors := aggregator.errors.set fingerprint (occurrence.errors.foldl countError pending) })

-- Each issue's error detail is bounded and ordered at the flush.
def flush (aggregator : IssueAggregator) : IssueBatch × IssueAggregator :=
  let issues := aggregator.issues.entries.map fun entry =>
    let pending := (aggregator.errors.get? entry.1).getD []
    let counted := pending.map fun pair => IssueError.mk pair.1.1 pair.1.2 pair.2
    { entry.2 with errors := mergeIssueErrors [] counted }
  (⟨aggregator.service, issues⟩, new aggregator.service)

end IssueAggregator

end Benzene.Mesh
