import Benzene.Core.Wire
import Benzene.Transport.Lambda

namespace Benzene.Transport.Aws

open Benzene.Data Benzene.Results Benzene.Core Benzene.Transport.Lambda

section Base64

def base64Digit (n : Nat) : CodePoint :=
  Json.codePoint (if n < 26 then 0x41 + n else if n < 52 then 0x61 + (n - 26)
    else if n < 62 then 0x30 + (n - 52) else if n = 62 then 0x2B else 0x2F)

def base64Pad : CodePoint := 0x3D

-- What a binary field is on the wire.
def b64encode : List UInt8 → Str
  | [] => []
  | [a] => [base64Digit (a.toNat / 4), base64Digit (a.toNat % 4 * 16), base64Pad, base64Pad]
  | [a, b] => [base64Digit (a.toNat / 4), base64Digit (a.toNat % 4 * 16 + b.toNat / 16),
      base64Digit (b.toNat % 16 * 4), base64Pad]
  | a :: b :: c :: rest =>
      base64Digit (a.toNat / 4) :: base64Digit (a.toNat % 4 * 16 + b.toNat / 16) ::
        base64Digit (b.toNat % 16 * 4 + c.toNat / 64) :: base64Digit (c.toNat % 64) :: b64encode rest

theorem base64Digit_spec {n : Nat} (h : n < 64) : base64Value (base64Digit n) = some n ∧
    (base64Digit n).val ≠ 0x3D ∧ (base64Digit n).isAscii = true := by
  have hdigits : ∀ n : Fin 64, base64Value (base64Digit n) = some n.val ∧
      (base64Digit n).val ≠ 0x3D ∧ (base64Digit n).isAscii = true := by
    decide
  exact hdigits ⟨n, h⟩

theorem base64Read_digit {n : Nat} (h : n < 64) (place left pads : Nat) (rest : Str) :
    base64Read place left pads (base64Digit n :: rest) =
      if place = 0 then base64Read 1 n 0 rest
      else if place = 1 then do
        return UInt8.ofNat (left * 4 + n / 16) :: (← base64Read 2 (n % 16) 0 rest)
      else if place = 2 then do
        return UInt8.ofNat (left * 16 + n / 4) :: (← base64Read 3 (n % 4) 0 rest)
      else do
        return UInt8.ofNat (left * 64 + n) :: (← base64Read 0 0 0 rest) := by
  obtain ⟨hvalue, hpad, -⟩ := base64Digit_spec h
  rw [base64Read, if_neg hpad, hvalue]

-- Three bytes are four digits of six bits.
theorem base64Read_b64encode (bytes : List UInt8) : base64Read 0 0 0 (b64encode bytes) = .ok bytes := by
  have hbyte (a : UInt8) {n : Nat} (h : n = a.toNat) : UInt8.ofNat n = a := by
    rw [h, UInt8.ofNat_toNat]
  fun_induction b64encode bytes with
  | case1 => rfl
  | case2 a =>
      have ha := a.toNat_lt
      rw [base64Read_digit (by omega), if_pos rfl, base64Read_digit (by omega), if_neg (by omega), if_pos rfl,
        (show base64Read 2 _ 0 [base64Pad, base64Pad] = .ok [] from rfl), hbyte a (by omega)]
      rfl
  | case3 a b =>
      have ha := a.toNat_lt
      have hb := b.toNat_lt
      rw [base64Read_digit (by omega), if_pos rfl, base64Read_digit (by omega), if_neg (by omega), if_pos rfl,
        base64Read_digit (by omega), if_neg (by omega), if_neg (by omega), if_pos rfl,
        (show base64Read 3 _ 0 [base64Pad] = .ok [] from rfl), hbyte b (by omega), hbyte a (by omega)]
      rfl
  | case4 a b c rest ih =>
      have ha := a.toNat_lt
      have hb := b.toNat_lt
      have hc := c.toNat_lt
      rw [base64Read_digit (by omega), if_pos rfl, base64Read_digit (by omega), if_neg (by omega), if_pos rfl,
        base64Read_digit (by omega), if_neg (by omega), if_neg (by omega), if_pos rfl,
        base64Read_digit (by omega), if_neg (by omega), if_neg (by omega), if_neg (by omega), ih,
        hbyte c (by omega), hbyte b (by omega), hbyte a (by omega)]
      rfl

theorem isAscii_b64encode (bytes : List UInt8) : (b64encode bytes).all CodePoint.isAscii = true := by
  have hdigit {n : Nat} (h : n < 64) : (base64Digit n).isAscii = true := (base64Digit_spec h).2.2
  have hpad : base64Pad.isAscii = true := rfl
  fun_induction b64encode bytes with
  | case1 => rfl
  | case2 a =>
      have ha := a.toNat_lt
      simp only [List.all_cons, List.all_nil, hpad]
      rw [hdigit (by omega), hdigit (by omega)]
      rfl
  | case3 a b =>
      have ha := a.toNat_lt
      have hb := b.toNat_lt
      simp only [List.all_cons, List.all_nil, hpad]
      rw [hdigit (by omega), hdigit (by omega), hdigit (by omega)]
      rfl
  | case4 a b c rest ih =>
      have ha := a.toNat_lt
      have hb := b.toNat_lt
      have hc := c.toNat_lt
      simp only [List.all_cons, ih]
      rw [hdigit (by omega), hdigit (by omega), hdigit (by omega), hdigit (by omega)]
      rfl

-- A text that is sent as base64 is read as it was.
theorem b64ToText_b64encode {text : Str} {bytes : List UInt8} (h : Str.utf8Encode text = some bytes)
    (hne : text ≠ []) : b64ToText (.str (b64encode bytes)) = .ok text := by
  have hbytes : bytes ≠ [] := by
    rintro rfl
    exact hne (Option.some.inj (Str.utf8Decode_utf8Encode h)).symm
  have hnonempty : b64encode bytes ≠ [] := by
    fun_cases b64encode bytes with
    | case1 => exact absurd rfl hbytes
    | case2 | case3 | case4 => exact List.cons_ne_nil _ _
  have htruthy : (Json.str (b64encode bytes)).truthy = true := by
    simpa [Json.truthy] using hnonempty
  unfold b64ToText
  rw [if_pos htruthy]
  dsimp only
  rw [b64decode, if_pos (isAscii_b64encode bytes), base64Read_b64encode]
  show (Native.bytes bytes).decoded = .ok text
  simp only [Native.decoded, Str.utf8Decode_utf8Encode h]

end Base64

section Senders

variable [UnicodeData]

def stringAttribute (text : Str) : Json :=
  .obj [Json.field "DataType" (.str "String"), Json.field "StringValue" (.str text)]

-- One attribute for each header, and the topic under its own name.
def stringAttributes (topic : Str) (headers : Dict Str Str) (keys : MetadataKeys) : Fields :=
  Entries.set keys.topic (stringAttribute topic) (Entries.mapValues stringAttribute headers.entries)

-- Headers go into a payload that is a JSON object, and into no other.
def embedHeaders (payload : Value) (headers : Dict Str Str) (key : Str) : Except PyError Str := do
  let body ← encodeBody payload
  if headers.entries = [] then return body
  match Json.loads body with
  | some (.obj parsed) =>
      return Json.dumpsWith .spaced (.obj (Entries.set key (.obj (Entries.mapValues Json.str headers.entries)) parsed))
  | _ => return body

def partitionKey (partitionKeyHeader topic : Str) (headers : Dict Str Str) : Str :=
  match headers.get? partitionKeyHeader with
  | some value => if partitionKeyHeader ≠ [] ∧ value ≠ [] then value else topic
  | none => topic

-- A sender with its host's configuration, and what the decoder at the other end is told.
inductive Channel
  | sns (topicArn : Str)
  | sqs (queueUrl : Str)
  | eventBridge (eventBusName source : Str) (detailType : Option Str) (defaultTopic : Str)
  | kinesis (streamName partitionKeyHeader defaultTopic : Str)

-- The request that `send_message` makes of its client.
def Channel.request (keys : MetadataKeys) (topic : Str) (payload : Value) (headers : Dict Str Str) :
    Channel → Except PyError Fields
  | .sns topicArn => do
      return [Json.field "TopicArn" (.str topicArn), Json.field "Message" (.str (← encodeBody payload)),
        Json.field "MessageAttributes" (.obj (stringAttributes topic headers keys))]
  | .sqs queueUrl => do
      return [Json.field "QueueUrl" (.str queueUrl), Json.field "MessageBody" (.str (← encodeBody payload)),
        Json.field "MessageAttributes" (.obj (stringAttributes topic headers keys))]
  | .eventBridge eventBusName source detailType _ => do
      let detail ← embedHeaders payload headers keys.headers
      let detailType := if detailType.getD [] = [] then topic else detailType.getD []
      return [Json.field "Entries" (.arr [.obj [Json.field "EventBusName" (.str eventBusName),
        Json.field "Source" (.str source), Json.field "DetailType" (.str detailType),
        Json.field "Detail" (.str detail)]])]
  | .kinesis streamName partitionKeyHeader _ => do
      let data ← embedHeaders payload headers keys.headers
      return [Json.field "StreamName" (.str streamName), Json.field "Data" (.str data),
        Json.field "PartitionKey" (.str (partitionKey partitionKeyHeader topic headers))]

end Senders

section Delivery

-- An attribute as the service hands it over.
def received (value type : Str) : Json → Json
  | .obj fields =>
      .obj [Json.field value (Json.getField fields "StringValue"), Json.field type (Json.getField fields "DataType")]
  | other => other

def receivedAttributes (value type : Str) : Json → Json
  | .obj attributes => .obj (Entries.mapValues (received value type) attributes)
  | other => other

-- The record that the service makes of a request, with what it adds of its own. Nothing
-- is delivered of a detail that is no JSON, or of data that has no bytes.
def Channel.deliver (native request : Fields) : Channel → Option Json
  | .sns _ =>
      some (.obj [Json.field "Sns" (.obj (Entries.set "Message" (Json.getField request "Message")
        (Entries.set "MessageAttributes"
          (receivedAttributes "Value" "Type" (Json.getField request "MessageAttributes")) native)))])
  | .sqs _ =>
      some (.obj (Entries.set "body" (Json.getField request "MessageBody")
        (Entries.set "messageAttributes"
          (receivedAttributes "stringValue" "dataType" (Json.getField request "MessageAttributes")) native)))
  | .eventBridge _ _ _ _ =>
      match Json.getField request "Entries" with
      | .arr [.obj entry] =>
          match Json.getField entry "Detail" with
          | .str detail => do
              let detail ← Json.loads detail
              return .obj (Entries.set "detail" detail (Entries.set "detail-type" (Json.getField entry "DetailType")
                (Entries.set "source" (Json.getField entry "Source") native)))
          | _ => none
      | _ => none
  | .kinesis _ _ _ =>
      match Json.getField request "Data" with
      | .str data => do
          let bytes ← Str.utf8Encode data
          return .obj [Json.field "kinesis" (.obj (Entries.set "data" (.str (b64encode bytes)) native))]
      | _ => none

variable [UnicodeData]

def Channel.decode (keys : MetadataKeys) (record : Json) : Channel → Except PyError Fields
  | .sns _ => snsRecordEnvelope keys record
  | .sqs _ => sqsRecordEnvelope keys record
  | .eventBridge _ _ _ defaultTopic =>
      match record with
      | .obj event => eventbridgeEnvelope keys defaultTopic event
      | _ => .error ⟨.typeError, []⟩
  | .kinesis _ _ defaultTopic => kinesisRecordEnvelope defaultTopic record

-- What a sender writes is decoded to an envelope that declares every header and carries
-- the payload.
def HeadersArrive (keys : MetadataKeys) (native : Fields) (topic : Str) (payload : Fields)
    (headers : Dict Str Str) (channel : Channel) : Prop :=
  ∃ request record envelope declared text fields,
    channel.request keys topic (.ofJson (.obj payload)) headers = .ok request ∧
    channel.deliver native request = some record ∧
    channel.decode keys record = .ok envelope ∧
    BenzeneMessageApplication.declaredHeaders envelope = .ok declared ∧
    (∀ header ∈ headers.entries, Entries.get? (Str.lower header.1) declared = some (.str header.2)) ∧
    Json.getField envelope "body" = .str text ∧ Json.loads text = some (.obj fields) ∧
    Entries.erase keys.headers fields = payload

end Delivery

section Members

theorem mapM_attributes {f : Str × Json → Except PyError (Str × Str)} {g : Str → Json}
    (h : ∀ name value, f (name, g value) = .ok (name, value)) (attributes : Attributes) :
    (Entries.mapValues g attributes).mapM f = .ok attributes := by
  rw [Except.mapM_eq_ok, Entries.mapValues, List.forall₂_map_left_iff]
  exact List.forall₂_same.mpr fun header _ => h header.1 header.2

theorem receivedAttributes_eq (value type : Str) (attributes : Attributes) :
    receivedAttributes value type (.obj (Entries.mapValues stringAttribute attributes)) =
      .obj (Entries.mapValues (fun text => .obj [Json.field value (.str text), Json.field type (.str "String")])
        attributes) := by
  simp only [receivedAttributes, Entries.mapValues, List.map_map]
  rfl

theorem getField_set (key other : Str) (value : Json) (fields : Fields) :
    Json.getField (Entries.set key value fields) other = if key = other then value else Json.getField fields other := by
  unfold Json.getField
  rw [Entries.get?_set]
  split <;> rfl

-- An object that has a member is read, and not its default.
theorem getTruthy_of {fields : Fields} {key : Str} {value : Json} (h : Json.getField fields key = value)
    (htruthy : value.truthy = true) (default : Json) : getTruthy (.obj fields) key default = .ok value := by
  unfold getTruthy Json.get
  dsimp only
  rw [h]
  show Except.ok (Json.orElse value default) = _
  rw [Json.orElse, if_pos htruthy]

theorem truthy_text {text : Str} (h : text ≠ []) : (Json.str text).truthy = true := by
  simpa [Json.truthy] using h

theorem truthy_obj {fields : Fields} (h : fields ≠ []) : (Json.obj fields).truthy = true := by
  simpa [Json.truthy] using h

theorem loads_payload {payload : Fields} (h : Json.WellFormedObject payload) :
    Json.loads (Json.dumpsWith .spaced (.obj payload)) = some (.obj payload) := by
  rw [Json.loads_dumpsWith, Json.reread_of_wellFormed h]

theorem erase_reserved {α : Type} {key : Str} {payload : List (Str × α)} (h : key ∉ Entries.keys payload) :
    Entries.erase key payload = payload := by
  apply List.filter_eq_self.mpr
  intro entry hentry
  have hne : entry.1 ≠ key := fun he => h (List.mem_map.mpr ⟨entry, hentry, he⟩)
  simpa using hne

theorem get?_reverse_of_mem {attributes : Attributes} (hnodup : (Entries.keys attributes).Nodup)
    {header : Str × Str} (h : header ∈ attributes) :
    Entries.get? header.1 attributes.reverse = some header.2 := by
  apply Entries.get?_of_mem
  · rw [Entries.keys, List.map_reverse]
    exact List.nodup_reverse.mpr hnodup
  · exact List.mem_reverse.mpr h

end Members

section Attributes

variable [UnicodeData] {keys : MetadataKeys} {topic : Str} {headers : Dict Str Str} {native payload : Fields}

-- Headers whose names differ in lower case, none of them a reserved name.
structure Sendable (keys : MetadataKeys) (headers : Dict Str Str) : Prop where
  distinct : (headers.entries.map fun header => Str.lower header.1).Nodup
  unreserved : ∀ header ∈ headers.entries, ∀ name ∈ [keys.topic, keys.version, keys.headers],
    Str.lower header.1 ≠ Str.lower name

def lowered (attributes : Attributes) : Attributes :=
  attributes.map fun header => (Str.lower header.1, header.2)

theorem keys_lowered (attributes : Attributes) :
    Entries.keys (lowered attributes) = attributes.map fun header => Str.lower header.1 := by
  simp [lowered, Entries.keys]

theorem lower_ne_topic (h : Sendable keys headers) : ∀ header ∈ headers.entries,
    Str.lower header.1 ≠ Str.lower keys.topic :=
  fun header hheader => h.unreserved header hheader keys.topic List.mem_cons_self

theorem stringAttributes_eq (h : Sendable keys headers) (topic : Str) :
    stringAttributes topic headers keys =
      Entries.mapValues stringAttribute (headers.entries ++ [(keys.topic, topic)]) := by
  have hnew : keys.topic ∉ Entries.keys (Entries.mapValues stringAttribute headers.entries) := by
    rw [Entries.keys_mapValues]
    intro hmem
    obtain ⟨header, hheader, heq⟩ := List.mem_map.mp hmem
    exact lower_ne_topic h header hheader (congrArg Str.lower heq)
  rw [stringAttributes, Entries.set_eq_append hnew, Entries.mapValues, Entries.mapValues, List.map_append]
  rfl

theorem readMessageMetadata_sent (h : Sendable keys headers) (topic : Str) :
    readMessageMetadata (headers.entries ++ [(keys.topic, topic)]) keys = (topic, lowered headers.entries) := by
  have hnew : Str.lower keys.topic ∉ Entries.keys (lowered headers.entries) := by
    rw [keys_lowered]
    intro hmem
    obtain ⟨header, hheader, heq⟩ := List.mem_map.mp hmem
    exact lower_ne_topic h header hheader heq
  have hlowered : Entries.update [] ((headers.entries ++ [(keys.topic, topic)]).map
      fun entry => (Str.lower entry.1, entry.2)) = lowered headers.entries ++ [(Str.lower keys.topic, topic)] := by
    rw [List.map_append]
    apply Entries.update_nil_of_nodup
    show (Entries.keys (lowered headers.entries ++ [(Str.lower keys.topic, topic)])).Nodup
    rw [Entries.keys, List.map_append]
    refine List.nodup_append.mpr ⟨?_, List.nodup_singleton _, ?_⟩
    · show (Entries.keys (lowered headers.entries)).Nodup
      rw [keys_lowered]
      exact h.distinct
    · intro a ha b hb hab
      rw [hab, List.mem_singleton.mp hb] at ha
      exact hnew ha
  have hnone : Entries.get? (Str.lower keys.topic) (lowered headers.entries) = none :=
    (Entries.get?_eq_none_iff _ _).mpr hnew
  unfold readMessageMetadata
  rw [hlowered]
  dsimp only
  rw [Entries.get?_append, hnone, Entries.erase, List.filter_append]
  show (_, Entries.erase (Str.lower keys.topic) (lowered headers.entries) ++ _) = _
  rw [erase_reserved hnew]
  simp

theorem encodeBody_payload : encodeBody (.ofJson (.obj payload)) = .ok (Json.dumpsWith .spaced (.obj payload)) :=
  dumpPayload_ofJson (.obj payload)

section Records

variable (keys) (attributes : Attributes) (record : Fields) {text : Str}

theorem sqsRecordEnvelope_of (hne : attributes ≠ []) (htext : text ≠ [])
    (hattributes : Json.getField record "messageAttributes" = .obj (Entries.mapValues
      (fun text => .obj [Json.field "stringValue" (.str text), Json.field "dataType" (.str "String")]) attributes))
    (hbody : Json.getField record "body" = .str text) :
    sqsRecordEnvelope keys (.obj record) = .ok (message (readMessageMetadata attributes keys).1
      (readMessageMetadata attributes keys).2 (.str text)) := by
  have hobject : Entries.mapValues (fun text => Json.obj [Json.field "stringValue" (.str text),
      Json.field "dataType" (.str "String")]) attributes ≠ [] := by
    simpa [Entries.mapValues] using hne
  unfold sqsRecordEnvelope
  rw [getTruthy_of hattributes (truthy_obj hobject), getTruthy_of hbody (truthy_text htext)]
  show (List.mapM (m := Except PyError) _ (Entries.mapValues _ attributes) >>= fun metadata => _) = _
  rw [mapM_attributes (fun _ _ => rfl)]
  rfl

theorem snsRecordEnvelope_of (hne : attributes ≠ []) (htext : text ≠ [])
    (hattributes : Json.getField record "MessageAttributes" = .obj (Entries.mapValues
      (fun text => .obj [Json.field "Value" (.str text), Json.field "Type" (.str "String")]) attributes))
    (hbody : Json.getField record "Message" = .str text) :
    snsRecordEnvelope keys (.obj [Json.field "Sns" (.obj record)]) = .ok (message
      (readMessageMetadata attributes keys).1 (readMessageMetadata attributes keys).2 (.str text)) := by
  have hobject : Entries.mapValues (fun text => Json.obj [Json.field "Value" (.str text),
      Json.field "Type" (.str "String")]) attributes ≠ [] := by
    simpa [Entries.mapValues] using hne
  have hrecord : record ≠ [] := by
    rintro rfl
    cases hbody
  have hsns : Json.getField [Json.field "Sns" (.obj record)] "Sns" = .obj record := rfl
  unfold snsRecordEnvelope
  rw [getTruthy_of hsns (truthy_obj hrecord)]
  dsimp only [bind, Except.bind]
  rw [getTruthy_of hattributes (truthy_obj hobject), getTruthy_of hbody (truthy_text htext)]
  show (List.mapM (m := Except PyError) _ (Entries.mapValues _ attributes) >>= fun metadata => _) = _
  rw [mapM_attributes (fun _ _ => rfl)]
  rfl

end Records

theorem declaredHeaders_of {envelope : Fields} {attributes : Attributes}
    (h : Json.getField envelope "headers" = .obj (Entries.mapValues Json.str attributes)) :
    BenzeneMessageApplication.declaredHeaders envelope = .ok (lowerKeys (Entries.mapValues Json.str attributes)) := by
  unfold BenzeneMessageApplication.declaredHeaders
  rw [h]
  cases attributes with
  | nil => rfl
  | cons header rest => rfl

-- The envelope's own lower-casing: the last header of a name in lower case is the one
-- that is read.
theorem get?_lowerKeys (attributes : Attributes) (name : Str) :
    Entries.get? name (lowerKeys (Entries.mapValues Json.str attributes)) =
      (Entries.get? name (lowered attributes).reverse).map Json.str := by
  unfold lowerKeys
  rw [Entries.get?_update_reverse, ← Entries.get?_mapValues]
  simp only [Entries.mapValues, lowered, List.map_reverse, List.map_map, Entries.get?_nil, Option.or_none]
  rfl

-- What arrives when the headers travel as attributes.
theorem headersArrive_attributes (hlower : ∀ text, Str.lower (Str.lower text) = Str.lower text)
    (h : Sendable keys headers) {channel : Channel} {request : Fields} {record : Json}
    (hrequest : channel.request keys topic (.ofJson (.obj payload)) headers = .ok request)
    (hrecord : channel.deliver native request = some record)
    (hdecode : channel.decode keys record = .ok (message topic (lowered headers.entries)
      (.str (Json.dumpsWith .spaced (.obj payload)))))
    (hpayload : Json.WellFormedObject payload) (hreserved : keys.headers ∉ Entries.keys payload) :
    HeadersArrive keys native topic payload headers channel := by
  refine ⟨request, record, _, _, _, payload, hrequest, hrecord, hdecode, declaredHeaders_of rfl, ?_, rfl,
    loads_payload hpayload, erase_reserved hreserved⟩
  intro header hheader
  have htwice : lowered (lowered headers.entries) = lowered headers.entries := by
    simp [lowered, hlower]
  have hnodup : (Entries.keys (lowered headers.entries)).Nodup := by
    rw [keys_lowered]
    exact h.distinct
  have hmem : (Str.lower header.1, header.2) ∈ lowered headers.entries := List.mem_map.mpr ⟨header, hheader, rfl⟩
  rw [get?_lowerKeys, htwice, get?_reverse_of_mem hnodup hmem]
  rfl

end Attributes

section Embedding

variable {key : Str} {headers : Dict Str Str} {payload : Fields}

-- A payload with its headers inside.
def embedded (key : Str) (headers : Dict Str Str) (payload : Fields) : Fields :=
  if headers.entries = [] then payload
  else payload ++ [(key, .obj (Entries.mapValues Json.str headers.entries))]

theorem erase_embedded (h : key ∉ Entries.keys payload) :
    Entries.erase key (embedded key headers payload) = payload := by
  unfold embedded
  split
  · exact erase_reserved h
  · rw [Entries.erase, List.filter_append]
    show Entries.erase key payload ++ _ = payload
    rw [erase_reserved h]
    simp

theorem wellFormed_embedded (hpayload : Json.WellFormedObject payload) (h : key ∉ Entries.keys payload)
    (hkey : key.Joined) (hheaders : ∀ header ∈ headers.entries, header.1.Joined ∧ header.2.Joined) :
    Json.WellFormedObject (embedded key headers payload) := by
  unfold embedded
  split
  · exact hpayload
  · rw [← Entries.set_eq_append h]
    apply Json.wellFormedObject_set hpayload hkey
    refine Json.wellFormedObject_iff.mpr ⟨?_, ?_⟩
    · rw [Entries.keys_mapValues]
      exact headers.nodup
    · intro field hfield
      obtain ⟨header, hheader, rfl⟩ := List.mem_map.mp hfield
      exact hheaders header hheader

theorem embeddedHeaders_embedded (h : key ∉ Entries.keys payload) :
    embeddedHeaders key (.obj (embedded key headers payload)) = headers.entries := by
  have hnone : Entries.get? key payload = none := (Entries.get?_eq_none_iff _ _).mpr h
  unfold embeddedHeaders embedded Json.getField
  by_cases hempty : headers.entries = []
  · simp only [hempty, if_true, hnone, Option.getD_none]
  · simp only [hempty, if_false, Entries.get?_append, hnone, Option.none_or, Entries.get?_cons, if_true,
      Option.getD_some, Entries.mapValues, List.filterMap_map]
    exact List.filterMap_some

variable [UnicodeData]

theorem embedHeaders_eq (hpayload : Json.WellFormedObject payload) (h : key ∉ Entries.keys payload) :
    embedHeaders (.ofJson (.obj payload)) headers key =
      .ok (Json.dumpsWith .spaced (.obj (embedded key headers payload))) := by
  unfold embedHeaders embedded
  rw [encodeBody_payload]
  dsimp only [bind, Except.bind]
  split
  · rfl
  · rw [loads_payload hpayload]
    dsimp only
    rw [Entries.set_eq_append h]
    rfl

theorem keys_nativeHeaders (event : Fields) :
    (Entries.keys (nativeHeaders event)).Sublist (Entries.keys eventMembers) := by
  unfold nativeHeaders
  generalize eventMembers = members
  induction members with
  | nil => exact List.Sublist.refl _
  | cons member rest ih =>
      rw [List.filterMap_cons]
      by_cases htruthy : (Json.getField event member.2).truthy = true
      · simp only [htruthy, if_true]
        exact ih.cons_cons _
      · simp only [htruthy, if_false, Bool.false_eq_true]
        exact ih.cons _

theorem lower_eventMembers : ∀ name ∈ Entries.keys eventMembers, Str.lower name = name := by
  intro name hname
  have hplain : ∀ name ∈ Entries.keys eventMembers, name.all CodePoint.isAscii = true ∧
      name.map Str.lowerAscii = name := by
    decide
  rw [Str.lower, if_pos (hplain name hname).1, (hplain name hname).2]

-- An embedded header wins over an event's own of the same name.
theorem get?_lowered_update {keys : MetadataKeys} (h : Sendable keys headers) {native : Attributes}
    (hnodup : (Entries.keys native).Nodup) (hnative : ∀ name ∈ Entries.keys native, Str.lower name = name)
    {header : Str × Str} (hheader : header ∈ headers.entries) :
    Entries.get? (Str.lower header.1) (lowered (Entries.update native headers.entries)).reverse = some header.2 := by
  have hinjective : ∀ other ∈ headers.entries, Str.lower other.1 = Str.lower header.1 → other = header :=
    fun other hother he => List.inj_on_of_nodup_map h.distinct hother hheader he
  obtain ⟨added, hupdate, hsublist, hadded⟩ := Entries.update_eq hnodup headers.nodup
  rw [hupdate, lowered, List.map_append, List.reverse_append, Entries.get?_append]
  by_cases hmem : header.1 ∈ Entries.keys native
  · have hlast : Entries.get? (Str.lower header.1) (lowered added).reverse = none := by
      rw [Entries.get?_eq_none_iff, Entries.keys, List.map_reverse, List.mem_reverse]
      intro hkey
      obtain ⟨_, hlowered, he⟩ := List.mem_map.mp hkey
      obtain ⟨other, hother, rfl⟩ := List.mem_map.mp hlowered
      have hsame := hinjective other (hsublist.subset hother) he
      rw [hsame] at hother
      exact (hadded header hheader).mp hother hmem
    obtain ⟨member, hmember, hname⟩ := List.mem_map.mp hmem
    have hvalue : Entries.get? header.1 headers.entries = some header.2 := Entries.get?_of_mem headers.nodup hheader
    have hkeys : ((native.map fun entry => (entry.1, (Entries.get? entry.1 headers.entries).getD entry.2)).map
        fun header => (Str.lower header.1, header.2)).map Prod.fst = Entries.keys native := by
      rw [List.map_map, List.map_map, Entries.keys]
      apply List.map_congr_left
      intro entry hentry
      exact hnative entry.1 (List.mem_map.mpr ⟨entry, hentry, rfl⟩)
    have hplace : (Str.lower header.1, header.2) ∈ (native.map fun entry =>
        (entry.1, (Entries.get? entry.1 headers.entries).getD entry.2)).map
        fun header => (Str.lower header.1, header.2) := by
      refine List.mem_map.mpr ⟨header, List.mem_map.mpr ⟨member, hmember, ?_⟩, rfl⟩
      rw [hname, hvalue]
      rfl
    show (Entries.get? _ (lowered added).reverse).or _ = _
    rw [hlast, Option.none_or]
    apply get?_reverse_of_mem _ hplace
    rw [Entries.keys, hkeys]
    exact hnodup
  · have hnodupAdded : (Entries.keys (lowered added)).Nodup := by
      rw [keys_lowered]
      exact h.distinct.sublist (hsublist.map _)
    have hplace : (Str.lower header.1, header.2) ∈ lowered added :=
      List.mem_map.mpr ⟨header, (hadded header hheader).mpr hmem, rfl⟩
    show (Entries.get? _ (lowered added).reverse).or _ = _
    rw [get?_reverse_of_mem hnodupAdded hplace]
    rfl

end Embedding

section Arriving

variable [UnicodeData] {keys : MetadataKeys} {topic : Str} {headers : Dict Str Str} {native payload : Fields}

-- The two members of a record whose headers travel as attributes.
theorem received_members (h : Sendable keys headers) (topic value type text : Str) (native : Fields)
    {bodyKey attributesKey : Str} (hkeys : attributesKey ≠ bodyKey) :
    let record := Entries.set bodyKey (.str text) (Entries.set attributesKey
      (receivedAttributes value type (.obj (stringAttributes topic headers keys))) native)
    Json.getField record attributesKey = .obj (Entries.mapValues
        (fun text => .obj [Json.field value (.str text), Json.field type (.str "String")])
        (headers.entries ++ [(keys.topic, topic)])) ∧
      Json.getField record bodyKey = .str text := by
  have hattributes := receivedAttributes_eq value type (headers.entries ++ [(keys.topic, topic)])
  rw [← stringAttributes_eq h topic] at hattributes
  refine ⟨?_, ?_⟩
  · rw [getField_set, if_neg hkeys.symm, getField_set, if_pos rfl, hattributes]
  · rw [getField_set, if_pos rfl]

theorem headersArrive_sns (hlower : ∀ text, Str.lower (Str.lower text) = Str.lower text)
    (h : Sendable keys headers) (hpayload : Json.WellFormedObject payload)
    (hreserved : keys.headers ∉ Entries.keys payload) (topicArn : Str) :
    HeadersArrive keys native topic payload headers (.sns topicArn) := by
  have hrequest : Channel.request keys topic (.ofJson (.obj payload)) headers (.sns topicArn) =
      .ok [Json.field "TopicArn" (.str topicArn),
        Json.field "Message" (.str (Json.dumpsWith .spaced (.obj payload))),
        Json.field "MessageAttributes" (.obj (stringAttributes topic headers keys))] := by
    simp only [Channel.request, encodeBody_payload]
    rfl
  apply headersArrive_attributes hlower h hrequest rfl ?_ hpayload hreserved
  obtain ⟨hattributes, hbody⟩ := received_members h topic "Value" "Type"
    (Json.dumpsWith .spaced (.obj payload)) native (by decide : ("MessageAttributes" : Str) ≠ "Message")
  have hdecode := snsRecordEnvelope_of keys _ _ (by simp) (dumps_ne_nil _) hattributes hbody
  rw [readMessageMetadata_sent h topic] at hdecode
  exact hdecode

theorem headersArrive_sqs (hlower : ∀ text, Str.lower (Str.lower text) = Str.lower text)
    (h : Sendable keys headers) (hpayload : Json.WellFormedObject payload)
    (hreserved : keys.headers ∉ Entries.keys payload) (queueUrl : Str) :
    HeadersArrive keys native topic payload headers (.sqs queueUrl) := by
  have hrequest : Channel.request keys topic (.ofJson (.obj payload)) headers (.sqs queueUrl) =
      .ok [Json.field "QueueUrl" (.str queueUrl),
        Json.field "MessageBody" (.str (Json.dumpsWith .spaced (.obj payload))),
        Json.field "MessageAttributes" (.obj (stringAttributes topic headers keys))] := by
    simp only [Channel.request, encodeBody_payload]
    rfl
  apply headersArrive_attributes hlower h hrequest rfl ?_ hpayload hreserved
  obtain ⟨hattributes, hbody⟩ := received_members h topic "stringValue" "dataType"
    (Json.dumpsWith .spaced (.obj payload)) native (by decide : ("messageAttributes" : Str) ≠ "body")
  have hdecode := sqsRecordEnvelope_of keys _ _ (by simp) (dumps_ne_nil _) hattributes hbody
  rw [readMessageMetadata_sent h topic] at hdecode
  exact hdecode

theorem eventbridgeEnvelope_of {event : Fields} {detail : Fields}
    (hdetail : Json.getField event "detail" = .obj detail) (defaultTopic : Str) :
    eventbridgeEnvelope keys defaultTopic event =
      .ok [Json.field "topic" (Json.orElse (Json.getField event "detail-type") (.str defaultTopic)),
        Json.field "headers" (.obj (Entries.mapValues Json.str
          (Entries.update (nativeHeaders event) (embeddedHeaders keys.headers (.obj detail))))),
        Json.field "body" (.str (Json.dumpsWith .spaced (.obj detail)))] := by
  unfold eventbridgeEnvelope
  rw [hdetail]
  dsimp only
  rw [encodeBody_payload]
  rfl

theorem headersArrive_eventBridge (h : Sendable keys headers) (hpayload : Json.WellFormedObject payload)
    (hreserved : keys.headers ∉ Entries.keys payload) (hkey : keys.headers.Joined)
    (hjoined : ∀ header ∈ headers.entries, header.1.Joined ∧ header.2.Joined)
    (eventBusName source : Str) (detailType : Option Str) (defaultTopic : Str) :
    HeadersArrive keys native topic payload headers (.eventBridge eventBusName source detailType defaultTopic) := by
  have hwell := wellFormed_embedded hpayload hreserved hkey hjoined
  have hrequest : Channel.request keys topic (.ofJson (.obj payload)) headers
      (.eventBridge eventBusName source detailType defaultTopic) =
      .ok [Json.field "Entries" (.arr [.obj [Json.field "EventBusName" (.str eventBusName),
        Json.field "Source" (.str source),
        Json.field "DetailType" (.str (if detailType.getD [] = [] then topic else detailType.getD [])),
        Json.field "Detail" (.str (Json.dumpsWith .spaced (.obj (embedded keys.headers headers payload))))]])] := by
    simp only [Channel.request, embedHeaders_eq hpayload hreserved]
    rfl
  generalize hentry : [Json.field "EventBusName" (.str eventBusName), Json.field "Source" (.str source),
    Json.field "DetailType" (.str (if detailType.getD [] = [] then topic else detailType.getD [])),
    Json.field "Detail" (.str (Json.dumpsWith .spaced (.obj (embedded keys.headers headers payload))))] = entry
      at hrequest
  have hsent : Json.getField entry "Detail" =
      .str (Json.dumpsWith .spaced (.obj (embedded keys.headers headers payload))) := by
    rw [← hentry]
    rfl
  have hrecord : Channel.deliver native [Json.field "Entries" (.arr [.obj entry])]
      (.eventBridge eventBusName source detailType defaultTopic) =
      some (.obj (Entries.set "detail" (.obj (embedded keys.headers headers payload))
        (Entries.set "detail-type" (Json.getField entry "DetailType")
          (Entries.set "source" (Json.getField entry "Source") native)))) := by
    have hlist : Json.getField [Json.field "Entries" (.arr [.obj entry])] "Entries" = .arr [.obj entry] := rfl
    simp only [Channel.deliver, hlist, hsent, loads_payload hwell]
    rfl
  generalize hevent : Entries.set ("detail" : Str) (Json.obj (embedded keys.headers headers payload))
    (Entries.set "detail-type" (Json.getField entry "DetailType")
      (Entries.set "source" (Json.getField entry "Source") native)) = event at hrecord
  have hdetail : Json.getField event "detail" = .obj (embedded keys.headers headers payload) := by
    rw [← hevent, getField_set, if_pos rfl]
  refine ⟨_, _, _, _, _, embedded keys.headers headers payload, hrequest, hrecord,
    eventbridgeEnvelope_of hdetail defaultTopic, declaredHeaders_of rfl, ?_, rfl, loads_payload hwell,
    erase_embedded hreserved⟩
  intro header hheader
  have hnodup : (Entries.keys (nativeHeaders event)).Nodup := by
    have hmembers : (Entries.keys eventMembers).Nodup := by decide
    exact hmembers.sublist (keys_nativeHeaders event)
  rw [embeddedHeaders_embedded hreserved, get?_lowerKeys, get?_lowered_update h hnodup
    (fun name hname => lower_eventMembers name ((keys_nativeHeaders event).subset hname)) hheader]
  rfl

theorem headersArrive_kinesis (hpayload : Json.WellFormedObject payload)
    (hreserved : keys.headers ∉ Entries.keys payload) (hempty : headers.entries = [])
    (streamName partitionKeyHeader defaultTopic : Str) :
    HeadersArrive keys native topic payload headers (.kinesis streamName partitionKeyHeader defaultTopic) := by
  have hembedded : embedded keys.headers headers payload = payload := by
    rw [embedded, if_pos hempty]
  have hrequest : Channel.request keys topic (.ofJson (.obj payload)) headers
      (.kinesis streamName partitionKeyHeader defaultTopic) =
      .ok [Json.field "StreamName" (.str streamName),
        Json.field "Data" (.str (Json.dumpsWith .spaced (.obj payload))),
        Json.field "PartitionKey" (.str (partitionKey partitionKeyHeader topic headers))] := by
    simp only [Channel.request, embedHeaders_eq hpayload hreserved, hembedded]
    rfl
  obtain ⟨bytes, hbytes⟩ := Option.isSome_iff_exists.mp
    ((Str.utf8Encode_isSome _).mpr (Json.encodable_dumpsWith .spaced (.obj payload)))
  have hrecord : Channel.deliver native [Json.field "StreamName" (.str streamName),
      Json.field "Data" (.str (Json.dumpsWith .spaced (.obj payload))),
      Json.field "PartitionKey" (.str (partitionKey partitionKeyHeader topic headers))]
      (.kinesis streamName partitionKeyHeader defaultTopic) =
      some (.obj [Json.field "kinesis" (.obj (Entries.set "data" (.str (b64encode bytes)) native))]) := by
    have hdata : Json.getField [Json.field "StreamName" (.str streamName),
        Json.field "Data" (.str (Json.dumpsWith .spaced (.obj payload))),
        Json.field "PartitionKey" (.str (partitionKey partitionKeyHeader topic headers))] "Data" =
        .str (Json.dumpsWith .spaced (.obj payload)) := rfl
    simp only [Channel.deliver, hdata, hbytes]
    rfl
  have hdecode : kinesisRecordEnvelope defaultTopic
      (.obj [Json.field "kinesis" (.obj (Entries.set "data" (.str (b64encode bytes)) native))]) =
      .ok (message defaultTopic [] (.str (Json.dumpsWith .spaced (.obj payload)))) := by
    have hnative : Entries.set ("data" : Str) (Json.str (b64encode bytes)) native ≠ [] := by
      intro hnil
      have hget := Entries.get?_set_self ("data" : Str) (Json.str (b64encode bytes)) native
      rw [hnil] at hget
      cases hget
    have hkinesis : Json.getField [Json.field "kinesis"
        (.obj (Entries.set "data" (.str (b64encode bytes)) native))] "kinesis" =
        .obj (Entries.set "data" (.str (b64encode bytes)) native) := rfl
    have hdata : Json.get (.obj (Entries.set "data" (.str (b64encode bytes)) native)) "data" =
        .ok (.str (b64encode bytes)) := by
      unfold Json.get
      dsimp only
      rw [getField_set, if_pos rfl]
    unfold kinesisRecordEnvelope
    rw [getTruthy_of hkinesis (truthy_obj hnative)]
    dsimp only [bind, Except.bind]
    rw [hdata]
    dsimp only
    rw [b64ToText_b64encode hbytes (dumps_ne_nil _)]
    rfl
  refine ⟨_, _, _, _, _, payload, hrequest, hrecord, hdecode, declaredHeaders_of rfl, ?_, rfl,
    loads_payload hpayload, erase_reserved hreserved⟩
  rw [hempty]
  intro header hheader
  cases hheader

-- A record's headers are never read out of its data.
theorem declaredHeaders_kinesis {defaultTopic : Str} {record : Json} {envelope declared : Fields}
    (h : kinesisRecordEnvelope defaultTopic record = .ok envelope)
    (hdeclared : BenzeneMessageApplication.declaredHeaders envelope = .ok declared) : declared = [] := by
  obtain ⟨kinesis, -, h⟩ := Except.bind_eq_ok.mp h
  obtain ⟨data, -, h⟩ := Except.bind_eq_ok.mp h
  obtain ⟨body, -, h⟩ := Except.bind_eq_ok.mp h
  cases h
  cases hdeclared
  rfl

def Channel.isKinesis : Channel → Bool
  | .kinesis _ _ _ => true
  | _ => false

-- The texts that travel inside a JSON detail hold no two halves of a pair.
def Channel.CarriesText (keys : MetadataKeys) (headers : Dict Str Str) : Channel → Prop
  | .eventBridge _ _ _ _ =>
      keys.headers.Joined ∧ ∀ header ∈ headers.entries, header.1.Joined ∧ header.2.Joined
  | _ => True

-- Headers and payload arrive over every service but Kinesis, where only the payload does.
theorem headers_arrive_iff (hlower : ∀ text, Str.lower (Str.lower text) = Str.lower text) {channel : Channel}
    (h : Sendable keys headers) (htext : channel.CarriesText keys headers)
    (hpayload : Json.WellFormedObject payload) :
    HeadersArrive keys native topic payload headers channel ↔
      (channel.isKinesis = true → headers.entries = []) ∧ keys.headers ∉ Entries.keys payload := by
  constructor
  · rintro ⟨request, record, envelope, declared, text, fields, -, -, hdecode, hdeclared, hheaders, -, -, hfields⟩
    constructor
    · intro hkinesis
      cases channel with
      | sns | sqs | eventBridge => cases hkinesis
      | kinesis streamName partitionKeyHeader defaultTopic =>
          apply List.eq_nil_iff_forall_not_mem.mpr
          intro header hheader
          have hget := hheaders header hheader
          rw [declaredHeaders_kinesis hdecode hdeclared] at hget
          cases hget
    · rw [← hfields]
      intro hmem
      obtain ⟨entry, hentry, hkey⟩ := List.mem_map.mp hmem
      have hne := (List.mem_filter.mp hentry).2
      simp [hkey] at hne
  · rintro ⟨hkinesis, hreserved⟩
    cases channel with
    | sns topicArn => exact headersArrive_sns hlower h hpayload hreserved topicArn
    | sqs queueUrl => exact headersArrive_sqs hlower h hpayload hreserved queueUrl
    | eventBridge eventBusName source detailType defaultTopic =>
        exact headersArrive_eventBridge h hpayload hreserved htext.1 htext.2 eventBusName source detailType
          defaultTopic
    | kinesis streamName partitionKeyHeader defaultTopic =>
        exact headersArrive_kinesis hpayload hreserved (hkinesis rfl) streamName partitionKeyHeader defaultTopic

end Arriving

section Runs

theorem lower_lower_ascii : letI := UnicodeData.ascii
    ∀ text : Str, Str.lower (Str.lower text) = Str.lower text := by
  let _ := UnicodeData.ascii
  intro text
  by_cases hplain : text.all CodePoint.isAscii = true
  · have htwice (c : CodePoint) : Str.lowerAscii (Str.lowerAscii c) = Str.lowerAscii c := by
      unfold Str.lowerAscii
      by_cases hupper : 0x41 ≤ c.val ∧ c.val ≤ 0x5A
      · rw [dif_pos hupper, dif_neg (by dsimp only; omega)]
      · rw [dif_neg hupper, dif_neg hupper]
    have hkept : (text.map Str.lowerAscii).all CodePoint.isAscii = true := by
      rw [List.all_map]
      apply List.all_eq_true.mpr
      intro c hc
      have hascii : c.val < 0x80 := of_decide_eq_true (List.all_eq_true.mp hplain c hc)
      show decide ((Str.lowerAscii c).val < 0x80) = true
      apply decide_eq_true
      unfold Str.lowerAscii
      split
      · dsimp only
        omega
      · exact hascii
    have hlower : Str.lower text = text.map Str.lowerAscii := if_pos hplain
    rw [hlower, Str.lower, if_pos hkept, List.map_map]
    exact List.map_congr_left fun c _ => htwice c
  · have hlower : Str.lower text = text := if_neg hplain
    rw [hlower, hlower]

def correlated : Dict Str Str := ⟨[("X-Correlation-Id", "c-1")], by decide⟩

def order : Fields := [Json.field "id" (.int 1)]

theorem sendable_correlated : letI := UnicodeData.ascii
    Sendable {} correlated := by
  let _ := UnicodeData.ascii
  exact ⟨by decide, by decide⟩

theorem wellFormed_order : Json.WellFormedObject order := by
  refine Json.wellFormedObject_iff.mpr ⟨by decide, ?_⟩
  intro field hfield
  rw [List.mem_singleton.mp hfield]
  exact ⟨Str.joined_ofString "id", trivial⟩

theorem headers_arrive_eventBridge : letI := UnicodeData.ascii
    HeadersArrive {} [] "orders:place" order correlated (.eventBridge "bus" "benzene" none "eventbridge:event") := by
  let _ := UnicodeData.ascii
  refine (headers_arrive_iff lower_lower_ascii sendable_correlated ?_ wellFormed_order).mpr
    ⟨fun h => (Bool.false_ne_true h).elim, by decide⟩
  refine ⟨Str.joined_ofString "benzene-headers", ?_⟩
  intro header hheader
  rw [List.mem_singleton.mp hheader]
  exact ⟨Str.joined_ofString _, Str.joined_ofString _⟩

-- A record's correlation id stays inside its body.
theorem not_headers_arrive_kinesis : letI := UnicodeData.ascii
    Sendable {} correlated ∧ Json.WellFormedObject order ∧
      ¬ HeadersArrive {} [] "orders:place" order correlated (.kinesis "orders" "partition-key" "orders:place") := by
  let _ := UnicodeData.ascii
  refine ⟨sendable_correlated, wellFormed_order, ?_⟩
  rintro ⟨_, _, _, _, _, _, -, -, hdecode, hdeclared, hheaders, -⟩
  have hget := hheaders ("X-Correlation-Id", "c-1") List.mem_cons_self
  rw [declaredHeaders_kinesis hdecode hdeclared] at hget
  cases hget

end Runs

end Benzene.Transport.Aws
