import Benzene.Transport.Metadata

namespace Benzene.Transport.Lambda

open Benzene.Data Benzene.Results Benzene.Core

section Base64

def base64Value (c : CodePoint) : Option Nat :=
  if 0x41 ≤ c.val ∧ c.val ≤ 0x5A then some (c.val - 0x41)
  else if 0x61 ≤ c.val ∧ c.val ≤ 0x7A then some (c.val - 0x61 + 26)
  else if 0x30 ≤ c.val ∧ c.val ≤ 0x39 then some (c.val - 0x30 + 52)
  else if c.val = 0x2B then some 62
  else if c.val = 0x2F then some 63
  else none

-- `place` is how many digits of a group of four have been read, `left` the bits
-- they leave. What is no digit is passed over, padding ends the text.
def base64Read (place left pads : Nat) : Str → Except PyError (List UInt8)
  | [] => if place = 0 then .ok [] else .error ⟨.exception "Error", []⟩
  | c :: rest =>
      if c.val = 0x3D then
        if place < 2 then base64Read place left pads rest
        else if 4 ≤ place + (pads + 1) then .ok []
        else base64Read place left (pads + 1) rest
      else match base64Value c with
        | none => base64Read place left pads rest
        | some digit =>
            if place = 0 then base64Read 1 digit 0 rest
            else if place = 1 then do
              return UInt8.ofNat (left * 4 + digit / 16) :: (← base64Read 2 (digit % 16) 0 rest)
            else if place = 2 then do
              return UInt8.ofNat (left * 16 + digit / 4) :: (← base64Read 3 (digit % 4) 0 rest)
            else do
              return UInt8.ofNat (left * 64 + digit) :: (← base64Read 0 0 0 rest)

-- A text that is no ASCII cannot be read at all.
def b64decode (text : Str) : Except PyError (List UInt8) :=
  if text.all CodePoint.isAscii then base64Read 0 0 0 text else .error ⟨.unicodeEncodeError, []⟩

-- An absent or empty field is an empty text.
def b64ToText (data : Json) : Except PyError Str :=
  if data.truthy then
    match data with
    | .str text => do (Native.bytes (← b64decode text)).decoded
    | _ => .error ⟨.typeError, []⟩
  else .ok []

end Base64

section Records

-- `x.get(key, default)`.
def getOr (x : Json) (key : Str) (default : Json) : Except PyError Json :=
  match x with
  | .obj fields => .ok ((Entries.get? key fields).getD default)
  | _ => .error ⟨.attributeError, []⟩

-- `x.get(key) or default`.
def getTruthy (x : Json) (key : Str) (default : Json) : Except PyError Json := do
  return Json.orElse (← x.get key) default

def message (topic : Str) (headers : Attributes) (body : Json) : Fields :=
  [Json.field "topic" (.str topic), Json.field "headers" (.obj (Entries.mapValues Json.str headers)),
    Json.field "body" body]

def colon : CodePoint := CodePoint.ofChar ':'

def slash : CodePoint := CodePoint.ofChar '/'

-- The table out of a stream's ARN, whose sixth part may hold colons of its own.
def dynamodbTableName (eventSourceArn : Json) : Except PyError Str :=
  match Json.orElse eventSourceArn (.str []) with
  | .str arn =>
      let parts := splitAt colon arn
      if parts.length < 6 then .ok []
      else match splitAt slash (Str.join [colon] (parts.drop 5)) with
        | kind :: table :: _ => .ok (if kind = ("table" : Str) then table else [])
        | _ => .ok []
  | _ => .error ⟨.attributeError, []⟩

variable [UnicodeData]

def sqsRecordEnvelope (keys : MetadataKeys) (record : Json) : Except PyError Fields := do
  let attributes ← items (← getTruthy record "messageAttributes" (.obj []))
  let metadata ← attributes.mapM fun entry => do
    return (entry.1, (← getOr entry.2 "stringValue" (.str [])).text)
  let (topic, headers) := readMessageMetadata metadata keys
  return message topic headers (← getTruthy record "body" (.str []))

def snsRecordEnvelope (keys : MetadataKeys) (record : Json) : Except PyError Fields := do
  let sns ← getTruthy record "Sns" (.obj [])
  let attributes ← items (← getTruthy sns "MessageAttributes" (.obj []))
  let metadata ← attributes.mapM fun entry => do
    return (entry.1, (← getOr entry.2 "Value" (.str [])).text)
  let (topic, headers) := readMessageMetadata metadata keys
  return message topic headers (← getTruthy sns "Message" (.str []))

-- The headers that an event's own members become.
def eventMembers : List (Str × Str) :=
  [("eventbridge-id", "id"), ("eventbridge-source", "source"), ("eventbridge-account", "account"),
    ("eventbridge-region", "region"), ("eventbridge-time", "time"), ("eventbridge-detail-type", "detail-type")]

def nativeHeaders (event : Fields) : Attributes :=
  eventMembers.filterMap fun member =>
    let value := Json.getField event member.2
    if value.truthy then some (member.1, value.text) else none

-- The headers embedded in the detail, as far as they are texts.
def embeddedHeaders (key : Str) (detail : Json) : Attributes :=
  match detail with
  | .obj fields =>
      match Json.getField fields key with
      | .obj embedded => embedded.filterMap fun header =>
          match header.2 with
          | .str text => some (header.1, text)
          | _ => none
      | _ => []
  | _ => []

def eventbridgeEnvelope (keys : MetadataKeys) (defaultTopic : Str) (event : Fields) : Except PyError Fields := do
  let detail := Json.getField event "detail"
  let topic := Json.orElse (Json.getField event "detail-type") (.str defaultTopic)
  let body ← match detail with
    | .str text => pure text
    | .null => encodeBody (.ofJson (.obj []))
    | detail => encodeBody (.ofJson detail)
  let headers := Entries.update (nativeHeaders event) (embeddedHeaders keys.headers detail)
  return [Json.field "topic" topic, Json.field "headers" (.obj (Entries.mapValues Json.str headers)),
    Json.field "body" (.str body)]

-- The topic is the table and what happened to it, unless the host states one.
def dynamodbRecordEnvelope (topic : Option Str) (record : Json) : Except PyError Fields := do
  let topic ← match topic with
    | some topic => pure topic
    | none => do
        let eventName := (← getOr record "eventName" (.str [])).text
        let table ← dynamodbTableName (← record.get "eventSourceARN")
        pure (if table = [] then eventName else table ++ (":" : Str) ++ eventName)
  let body ← encodeBody (.ofJson (← getTruthy record "dynamodb" (.obj [])))
  return message topic [] (.str body)

def kinesisRecordEnvelope (topic : Str) (record : Json) : Except PyError Fields := do
  let body ← b64ToText (← (← getTruthy record "kinesis" (.obj [])).get "data")
  return message topic [] (.str body)

-- What each source reports a record by.
def messageId (record : Json) : Except PyError Json := getOr record "messageId" (.str [])

def dynamodbSequence (record : Json) : Except PyError Json := do
  getOr (← getTruthy record "dynamodb" (.obj [])) "SequenceNumber" (.str [])

def kinesisSequence (record : Json) : Except PyError Json := do
  getOr (← getTruthy record "kinesis" (.obj [])) "sequenceNumber" (.str [])

end Records

section Host

structure AwsLambdaApp (σ : Type) where
  application : BenzeneMessageApplication σ
  metadataKeys : MetadataKeys := {}
  kinesisTopic : Str := "kinesis:record"
  dynamodbTopic : Option Str := none
  settlement : Settlement := {}

variable [UnicodeData] {σ : Type} (app : AwsLambdaApp σ)

-- What a record adds to the failures.
def reported (identify : Json → Except PyError Json) (record : Json) (outcome : OneWayOutcome) :
    Except PyError (List Json) :=
  if outcome.acknowledge then .ok [] else do return [← identify record]

-- The identifiers of the records that are not acknowledged.
def runBatch (decode : Json → Except PyError Fields) (identify : Json → Except PyError Json) :
    List Json → Py PyError σ (List Json)
  | [] => pure []
  | record :: rest => do
      let outcome ← dispatchOneWay app.application app.settlement (Py.lift (decode record))
      let failures ← Py.lift (reported identify record outcome)
      return failures ++ (← runBatch decode identify rest)

def batchItemFailures (identifiers : List Json) : Json :=
  .obj [Json.field "batchItemFailures"
    (.arr (identifiers.map fun identifier => .obj [Json.field "itemIdentifier" identifier]))]

def handleBatch (decode : Json → Except PyError Fields) (identify : Json → Except PyError Json) (event : Fields) :
    Py PyError σ Json := do
  let records ← Py.lift ((Entries.get? ("Records" : Str) event).getD (.arr [])).iter
  return batchItemFailures (← runBatch app decode identify records)

def handleSqs : Fields → Py PyError σ Json :=
  handleBatch app (sqsRecordEnvelope app.metadataKeys) messageId

def handleDynamodb : Fields → Py PyError σ Json :=
  handleBatch app (dynamodbRecordEnvelope app.dynamodbTopic) dynamodbSequence

def handleKinesis : Fields → Py PyError σ Json :=
  handleBatch app (kinesisRecordEnvelope app.kinesisTopic) kinesisSequence

end Host

section Isolation

theorem settleError_default {σ : Type} {settlement : Settlement} (hdefault : settlement.atMostOnce = false)
    (topic : Str) (error : PyError) (world : σ) :
    settleError settlement topic error world = (.error error, world) := by
  unfold settleError
  rw [hdefault]
  rfl

variable [UnicodeData] {σ : Type} (app : AwsLambdaApp σ) (decode : Json → Except PyError Fields)

-- Every record run once, in order, each in the world that the one before it left,
-- whatever became of that one.
def runEach : List Json → σ → List (Json × Except PyError Response) × σ
  | [], world => ([], world)
  | record :: rest, world =>
      let (outcome, next) := attempt app.application app.settlement (Py.lift (decode record)) world
      let (outcomes, last) := runEach rest next
      ((record, outcome) :: outcomes, last)

def acknowledged : Except PyError Response → Bool
  | .ok response => (decodeResponse response).isSuccessful
  | .error _ => false

-- The records that are not acknowledged are reported, each by its identifier.
def Isolates (identify : Json → Except PyError Json) (handled : Py PyError σ Json) (records : List Json)
    (world : σ) : Prop :=
  ∃ identifiers, ((runEach app decode records world).1.filter fun run => !acknowledged run.2).mapM
      (fun run => identify run.1) = .ok identifiers ∧
    handled world = (.ok (batchItemFailures identifiers), (runEach app decode records world).2)

-- No record's decoding or pipeline raises.
def NoneRaises (records : List Json) (world : σ) : Prop :=
  ∀ run ∈ (runEach app decode records world).1, run.2.isOk = true

variable {app decode}

theorem attempt_undecoded {record : Json} {error : PyError} (h : decode record = .error error) (world : σ) :
    attempt app.application app.settlement (Py.lift (decode record)) world = (.error error, world) := by
  unfold attempt
  rw [h]
  rfl

theorem attempt_decoded {record : Json} {fields : Fields} (h : decode record = .ok fields) (world : σ) :
    attempt app.application app.settlement (Py.lift (decode record)) world =
      app.application.handle fields app.settlement.ignoreUnmatchedTopics world := by
  unfold attempt
  rw [h, Py.lift_ok_bind]

-- A dispatch raises what the attempt raises, and else acknowledges a success.
theorem dispatchOneWay_attempt (hdefault : app.settlement.atMostOnce = false) {record : Json} {world next : σ}
    {outcome : Except PyError Response}
    (h : attempt app.application app.settlement (Py.lift (decode record)) world = (outcome, next)) :
    (∀ error, outcome = .error error →
      dispatchOneWay app.application app.settlement (Py.lift (decode record)) world = (.error error, next)) ∧
    ∀ response, outcome = .ok response → ∃ settled,
      dispatchOneWay app.application app.settlement (Py.lift (decode record)) world = (.ok settled, next) ∧
        settled.acknowledge = acknowledged outcome := by
  unfold dispatchOneWay
  rw [Py.lift_apply]
  cases hdecode : decode record with
  | error error =>
      rw [attempt_undecoded hdecode] at h
      cases h
      refine ⟨?_, fun response hno => nomatch hno⟩
      intro raised hraised
      cases hraised
      exact settleError_default hdefault [] error world
  | ok fields =>
      rw [attempt_decoded hdecode] at h
      dsimp only
      rw [h]
      cases outcome with
      | error error =>
          refine ⟨?_, fun response hno => nomatch hno⟩
          intro raised hraised
          cases hraised
          exact settleError_default hdefault _ error next
      | ok response =>
          refine ⟨(fun error hno => nomatch hno), ?_⟩
          intro answered hanswered
          cases hanswered
          refine ⟨_, rfl, ?_⟩
          show app.settlement.acknowledges (decodeResponse response) = acknowledged (.ok response)
          unfold Settlement.acknowledges
          rw [hdefault]
          rfl

variable {identify : Json → Except PyError Json}

theorem runEach_cons {record : Json} (rest : List Json) {world next : σ} {outcome : Except PyError Response}
    (h : attempt app.application app.settlement (Py.lift (decode record)) world = (outcome, next)) :
    runEach app decode (record :: rest) world =
      ((record, outcome) :: (runEach app decode rest next).1, (runEach app decode rest next).2) := by
  rw [runEach, h]

theorem runBatch_finishes (hdefault : app.settlement.atMostOnce = false) {records : List Json}
    (hid : ∀ record ∈ records, ∃ identifier, identify record = .ok identifier) {world : σ}
    (h : NoneRaises app decode records world) :
    ∃ identifiers, ((runEach app decode records world).1.filter fun run => !acknowledged run.2).mapM
        (fun run => identify run.1) = .ok identifiers ∧
      runBatch app decode identify records world = (.ok identifiers, (runEach app decode records world).2) := by
  induction records generalizing world with
  | nil => exact ⟨[], rfl, rfl⟩
  | cons record rest ih =>
      cases hattempt : attempt app.application app.settlement (Py.lift (decode record)) world with
      | mk outcome next =>
          have hruns := runEach_cons rest hattempt
          unfold NoneRaises at h
          rw [hruns] at h ⊢
          cases outcome with
          | error error => cases h (record, .error error) List.mem_cons_self
          | ok response =>
              obtain ⟨settled, hdispatch, hacknowledge⟩ := (dispatchOneWay_attempt hdefault hattempt).2 response rfl
              obtain ⟨identifiers, hmapped, hbatch⟩ := ih (fun other hmem => hid other (List.mem_cons_of_mem _ hmem))
                fun run hmem => h run (List.mem_cons_of_mem _ hmem)
              obtain ⟨identifier, hidentifier⟩ := hid record List.mem_cons_self
              rw [runBatch, Py.bind_ok hdispatch, List.filter_cons]
              cases hsuccess : acknowledged (.ok response) with
              | true =>
                  have hreported : reported identify record settled = .ok [] := by
                    unfold reported
                    rw [hacknowledge, hsuccess, if_pos rfl]
                  refine ⟨identifiers, hmapped, ?_⟩
                  rw [hreported, Py.lift_ok_bind, Py.bind_ok hbatch]
                  rfl
              | false =>
                  have hreported : reported identify record settled = .ok [identifier] := by
                    unfold reported
                    rw [hacknowledge, hsuccess, if_neg (by simp), hidentifier]
                    rfl
                  refine ⟨identifier :: identifiers, ?_, ?_⟩
                  · rw [Bool.not_false, if_pos rfl, Except.mapM_eq_ok]
                    exact .cons hidentifier (Except.mapM_eq_ok.mp hmapped)
                  · rw [hreported, Py.lift_ok_bind, Py.bind_ok hbatch]
                    rfl

theorem runBatch_raises (hdefault : app.settlement.atMostOnce = false) {records : List Json}
    (hid : ∀ record ∈ records, ∃ identifier, identify record = .ok identifier) {world : σ}
    (h : ¬NoneRaises app decode records world) :
    ∃ error after, runBatch app decode identify records world = (.error error, after) := by
  induction records generalizing world with
  | nil => exact absurd (fun run hmem => nomatch hmem) h
  | cons record rest ih =>
      cases hattempt : attempt app.application app.settlement (Py.lift (decode record)) world with
      | mk outcome next =>
          have hdispatch := dispatchOneWay_attempt hdefault hattempt
          rw [runBatch]
          cases outcome with
          | error error => exact ⟨error, next, Py.bind_error (hdispatch.1 error rfl)⟩
          | ok response =>
              obtain ⟨settled, hdispatched, -⟩ := hdispatch.2 response rfl
              have hrest : ¬NoneRaises app decode rest next := by
                intro hrest
                apply h
                unfold NoneRaises
                rw [runEach_cons rest hattempt]
                intro run hmem
                cases List.mem_cons.mp hmem with
                | inl heq => rw [heq]; rfl
                | inr hmem => exact hrest run hmem
              obtain ⟨error, after, hraised⟩ := ih (fun other hmem => hid other (List.mem_cons_of_mem _ hmem)) hrest
              obtain ⟨identifier, hidentifier⟩ := hid record List.mem_cons_self
              have hreported : ∃ failures, reported identify record settled = .ok failures := by
                unfold reported
                cases settled.acknowledge with
                | true => exact ⟨[], rfl⟩
                | false => exact ⟨[identifier], by rw [hidentifier]; rfl⟩
              obtain ⟨failures, hreported⟩ := hreported
              refine ⟨error, after, ?_⟩
              rw [Py.bind_ok hdispatched, hreported, Py.lift_ok_bind, Py.bind_error hraised]

theorem isolates_iff (hdefault : app.settlement.atMostOnce = false) {event : Fields} {records : List Json}
    (hevent : Entries.get? ("Records" : Str) event = some (.arr records))
    (hid : ∀ record ∈ records, ∃ identifier, identify record = .ok identifier) (world : σ) :
    Isolates app decode identify (handleBatch app decode identify event) records world ↔
      NoneRaises app decode records world := by
  have hiter : (Option.getD (Entries.get? ("Records" : Str) event) (.arr [])).iter = .ok records := by
    rw [hevent]
    rfl
  unfold Isolates handleBatch
  rw [hiter, Py.lift_ok_bind]
  constructor
  · rintro ⟨identifiers, -, hrun⟩
    by_contra hraises
    obtain ⟨error, after, hraised⟩ := runBatch_raises hdefault hid hraises
    rw [Py.bind_error hraised] at hrun
    cases hrun
  · intro hnone
    obtain ⟨identifiers, hmapped, hbatch⟩ := runBatch_finishes hdefault hid hnone
    refine ⟨identifiers, hmapped, ?_⟩
    rw [Py.bind_ok hbatch]
    rfl

-- One raising record ends the whole batch, and nothing else does.
theorem partialBatch_iff (app : AwsLambdaApp σ) (hdefault : app.settlement.atMostOnce = false) {event : Fields}
    {records : List Json} (hevent : Entries.get? ("Records" : Str) event = some (.arr records)) (world : σ) :
    ((∀ record ∈ records, ∃ identifier, messageId record = .ok identifier) →
      (Isolates app (sqsRecordEnvelope app.metadataKeys) messageId (handleSqs app event) records world ↔
        NoneRaises app (sqsRecordEnvelope app.metadataKeys) records world)) ∧
    ((∀ record ∈ records, ∃ identifier, dynamodbSequence record = .ok identifier) →
      (Isolates app (dynamodbRecordEnvelope app.dynamodbTopic) dynamodbSequence
          (handleDynamodb app event) records world ↔
        NoneRaises app (dynamodbRecordEnvelope app.dynamodbTopic) records world)) ∧
    ((∀ record ∈ records, ∃ identifier, kinesisSequence record = .ok identifier) →
      (Isolates app (kinesisRecordEnvelope app.kinesisTopic) kinesisSequence (handleKinesis app event) records world ↔
        NoneRaises app (kinesisRecordEnvelope app.kinesisTopic) records world)) :=
  ⟨fun hid => isolates_iff hdefault hevent hid world, fun hid => isolates_iff hdefault hevent hid world,
    fun hid => isolates_iff hdefault hevent hid world⟩

end Isolation

section Batches

-- An application that succeeds whatever the message.
def obliging : AwsLambdaApp Unit := { application := ⟨[fun _ => setResult (Result.ok none)], "benzene-version"⟩ }

def kinesisRecord (sequence data : Str) : Json :=
  .obj [Json.field "kinesis" (.obj [Json.field "sequenceNumber" (.str sequence), Json.field "data" (.str data)])]

def kinesisEvent (records : List Json) : Fields := [Json.field "Records" (.arr records)]

-- An application that refuses what is no object.
def picky : AwsLambdaApp Unit :=
  { application :=
      ⟨[fun _ => do
          let (context, _) ← Py.get
          setResult (match context.request with
            | .obj _ => Result.ok none
            | _ => Result.badRequest "no object")], "benzene-version"⟩ }

-- The second of three records is refused.
def mixedRecords : List Json := [kinesisRecord "1" "e30=", kinesisRecord "2" "MQ==", kinesisRecord "3" "e30="]

theorem partialBatch_iff_mixed : letI := UnicodeData.ascii
    Isolates picky (kinesisRecordEnvelope picky.kinesisTopic) kinesisSequence
        (handleKinesis picky (kinesisEvent mixedRecords)) mixedRecords () ∧
      (handleKinesis picky (kinesisEvent mixedRecords) ()).1 = .ok (batchItemFailures [.str "2"]) ∧
      ¬Isolates picky (kinesisRecordEnvelope picky.kinesisTopic) kinesisSequence
        (handleKinesis picky (kinesisEvent (mixedRecords ++ [kinesisRecord "4" "e"])))
        (mixedRecords ++ [kinesisRecord "4" "e"]) () := by
  let _ := UnicodeData.ascii
  have hidentified (records : List Json) (h : ∀ record ∈ records, (kinesisSequence record).isOk = true) :
      ∀ record ∈ records, ∃ identifier, kinesisSequence record = .ok identifier :=
    fun record hmem => Except.isOk_iff.mp (h record hmem)
  have hrecords (records : List Json) :
      Entries.get? ("Records" : Str) (kinesisEvent records) = some (.arr records) := rfl
  have hquiet := (partialBatch_iff picky rfl (hrecords mixedRecords) ()).2.2 (hidentified _ (by decide +kernel))
  have hraising := (partialBatch_iff picky rfl (hrecords (mixedRecords ++ [kinesisRecord "4" "e"])) ()).2.2
    (hidentified _ (by decide +kernel))
  refine ⟨hquiet.mpr ?_, by decide +kernel, mt hraising.mp ?_⟩
  · have hall : ((runEach picky (kinesisRecordEnvelope picky.kinesisTopic) mixedRecords ()).1.all
        fun run => run.2.isOk) = true := by decide +kernel
    exact List.all_eq_true.mp hall
  · intro hnone
    have hall : ((runEach picky (kinesisRecordEnvelope picky.kinesisTopic)
        (mixedRecords ++ [kinesisRecord "4" "e"]) ()).1.all fun run => run.2.isOk) = false := by decide +kernel
    rw [List.all_eq_true.mpr hnone] at hall
    cases hall

-- A record whose data is no base64 takes an acknowledged one with it.
theorem not_partialBatch : letI := UnicodeData.ascii
    ¬∀ (app : AwsLambdaApp Unit) (records : List Json), app.settlement.atMostOnce = false →
      (records.map kinesisSequence).Nodup →
        Isolates app (kinesisRecordEnvelope app.kinesisTopic) kinesisSequence
          (handleKinesis app (kinesisEvent records)) records () := by
  let _ := UnicodeData.ascii
  intro h
  obtain ⟨identifiers, -, hhandled⟩ := h obliging [kinesisRecord "1" "e30=", kinesisRecord "2" "e"] rfl (by decide)
  have hraised : (handleKinesis obliging (kinesisEvent [kinesisRecord "1" "e30=", kinesisRecord "2" "e"]) ()).1.isOk =
      false := by
    decide +kernel
  rw [hhandled] at hraised
  cases hraised

end Batches

end Benzene.Transport.Lambda
