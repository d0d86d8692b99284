import Benzene.Http.Invoke
import Benzene.Transport.Kafka
import Benzene.Transport.RabbitMq

namespace Benzene.Transport

open Benzene.Data Benzene.Results Benzene.Core
open Benzene.Http (echoRegistry echoRegistry_serves)
open BenzeneMessageApplication (declaredTopic declaredHeaders declaredBody)

section Envelopes

def Texts (fields : Fields) : Prop := ∀ entry ∈ fields, ∃ text, entry.2 = .str text

theorem Texts.hashable {fields : Fields} (h : Texts fields) (key : Str) :
    (Json.getField fields key).hashable = true := by
  unfold Json.getField
  cases hget : Entries.get? key fields with
  | none => rfl
  | some value =>
      obtain ⟨text, htext⟩ := h _ (Entries.mem_of_get? hget)
      rw [Option.getD_some, show value = .str text from htext]
      rfl

theorem texts_mapValues (attributes : Attributes) : Texts (Entries.mapValues Json.str attributes) := by
  intro entry hentry
  obtain ⟨header, -, rfl⟩ := List.mem_map.mp hentry
  exact ⟨header.2, rfl⟩

variable [UnicodeData]

theorem Texts.lowerKeys {fields : Fields} (h : Texts fields) : Texts (lowerKeys fields) := by
  intro entry hentry
  cases Entries.mem_update hentry with
  | inl hnone => cases hnone
  | inr hmem =>
      obtain ⟨header, hheader, rfl⟩ := List.mem_map.mp hmem
      exact h header hheader

-- The topic and the headers of a decoded message are texts.
theorem declaredHeaders_envelope {topic body : Str} {attributes : Attributes} {headers : Fields}
    (h : declaredHeaders (envelope topic attributes body) = .ok headers) : Texts headers := by
  have hobject : Json.getField (envelope topic attributes body) "headers" =
      .obj (Entries.mapValues Json.str attributes) := rfl
  unfold declaredHeaders at h
  rw [hobject] at h
  obtain ⟨fields, hfields, hlower⟩ := Except.bind_eq_ok.mp h
  cases hlower
  apply Texts.lowerKeys
  unfold Json.orElse at hfields
  split at hfields
  · cases hfields
    exact texts_mapValues attributes
  · cases hfields
    intro entry hentry
    cases hentry

theorem answerable_envelope (versionHeader topic : Str) (attributes : Attributes) (body : Str) :
    Answerable versionHeader (envelope topic attributes body) := by
  refine ⟨fun _ => ⟨_, rfl⟩, ?_⟩
  intro _ headers hheaders _ _
  have htexts := declaredHeaders_envelope hheaders
  constructor
  · have htopic : Json.getField (envelope topic attributes body) "topic" = .str topic := rfl
    unfold declaredTopic
    rw [htopic]
    unfold Json.orElse
    split <;> rfl
  · intro _
    unfold resolveVersion Json.orElse
    split
    · exact htexts.hashable _
    · rfl

variable {σ τ : Type} {registry : Registry σ τ}

-- A message that can be decoded is answered.
theorem dispatchOneWay_decoded (h : registry.Serves) (versionKey : Str) (settlement : Settlement)
    {decoded : Except PyError Fields} {topic body : Str} {attributes : Attributes}
    (hdecoded : decoded = .ok (envelope topic attributes body)) (world : σ) :
    ∃ outcome after, dispatchOneWay (benzeneMessageApplication registry [] versionKey) settlement
      (Py.lift decoded) world = (.ok outcome, after) := by
  obtain ⟨response, hresponse⟩ := (handle_ok_iff h versionKey (envelope topic attributes body)
    settlement.ignoreUnmatchedTopics world).mpr (answerable_envelope _ topic attributes body)
  unfold dispatchOneWay
  rw [hdecoded, Py.lift_apply]
  dsimp only
  cases hhandle : (benzeneMessageApplication registry [] versionKey).handle (envelope topic attributes body)
      settlement.ignoreUnmatchedTopics world with
  | mk outcome after =>
      rw [hhandle] at hresponse
      cases hresponse
      exact ⟨_, after, rfl⟩

theorem dispatchOneWay_undecoded (versionKey : Str) (settlement : Settlement) {decoded : Except PyError Fields}
    {error : PyError} (hdecoded : decoded = .error error) (world : σ) :
    dispatchOneWay (benzeneMessageApplication registry [] versionKey) settlement (Py.lift decoded) world =
      settleError settlement [] error world := by
  unfold dispatchOneWay
  rw [hdecoded, Py.lift_apply]

-- A message is handled if its body can be read, and whatever it is if the
-- settlement gives up on what raises.
theorem dispatchOneWay_ok_iff (h : registry.Serves) (versionKey : Str) (settlement : Settlement)
    (keys : MetadataKeys) (headers : List (Str × Native)) (cameBy body : Native) (world : σ) :
    (∃ outcome after, dispatchOneWay (benzeneMessageApplication registry [] versionKey) settlement
      (Py.lift (decodeMessage keys headers cameBy body)) world = (.ok outcome, after)) ↔
      settlement.atMostOnce = true ∨ body.Readable := by
  cases hdecoded : decodeMessage keys headers cameBy body with
  | ok fields =>
      obtain ⟨topic, attributes, text, henvelope⟩ := decodeMessage_envelope hdecoded
      have hreadable := decodeMessage_ok_iff.mp ⟨fields, hdecoded⟩
      exact ⟨fun _ => .inr hreadable, fun _ => dispatchOneWay_decoded h versionKey settlement (by rw [henvelope]) world⟩
  | error error =>
      rw [dispatchOneWay_undecoded versionKey settlement rfl world]
      have hunreadable : ¬body.Readable := by
        intro hreadable
        obtain ⟨fields, hok⟩ := decodeMessage_ok_iff.mpr hreadable
        rw [hdecoded] at hok
        cases hok
      rw [decodeMessage_error hdecoded]
      unfold settleError
      cases settlement.atMostOnce with
      | true => exact ⟨fun _ => .inl rfl, fun _ => ⟨_, _, rfl⟩⟩
      | false =>
          refine ⟨?_, fun hor => ?_⟩
          · rintro ⟨outcome, after, hno⟩
            cases hno
          · cases hor with
            | inl hfalse => cases hfalse
            | inr hreadable => exact absurd hreadable hunreadable

end Envelopes

section Loops

variable [UnicodeData] {σ τ : Type} {registry : Registry σ τ}

-- A round commits the record or passes over it, and the loop goes on.
def Kafka.Continues (app : Kafka.KafkaConsumerApp σ) (message : Kafka.KafkaMessage) (world : σ) : Prop :=
  ∃ result : Result Json, ∃ after, ∀ rest offsets,
    Kafka.runConsumerLoop app {} (some message :: rest) (world, offsets) = Kafka.runConsumerLoop app {} rest
      (after, if app.settlement.acknowledges result then Kafka.commit message offsets else offsets)

-- A round acks the delivery or nacks it, once, and the loop goes on.
def RabbitMq.Continues (app : RabbitMq.RabbitMqConsumerApp σ) (delivery : RabbitMq.Delivery) (world : σ) : Prop :=
  ∃ result : Result Json, ∃ after, ∀ rest told, RabbitMq.runConsumerLoop app {} (some delivery :: rest) (world, told) =
    RabbitMq.runConsumerLoop app {} rest (after, told ++ [if app.settlement.acknowledges result then
      .basicAck delivery.deliveryTag else .basicNack delivery.deliveryTag true])

-- Without a callback, attending to a message is dispatching it.
theorem Kafka.attend_default {app : Kafka.KafkaConsumerApp σ} {message : Kafka.KafkaMessage} {world after : σ}
    {outcome : Except PyError OneWayOutcome}
    (h : dispatchOneWay app.application app.settlement
      (Py.lift (Kafka.decodeKafkaMessage app.metadataKeys message)) world = (outcome, after)) :
    Kafka.attend app {} message world = (outcome.map OneWayOutcome.result, after) := by
  have hhandle : app.handleMessage message world = (outcome.map OneWayOutcome.result, after) := by
    unfold Kafka.KafkaConsumerApp.handleMessage
    cases outcome with
    | error error => exact Py.bind_error h
    | ok outcome =>
        rw [Py.bind_ok h]
        rfl
  unfold Kafka.attend
  cases outcome with
  | error error => exact Py.bind_error hhandle
  | ok outcome =>
      rw [Py.bind_ok hhandle]
      rfl

theorem RabbitMq.attend_default {app : RabbitMq.RabbitMqConsumerApp σ} {delivery : RabbitMq.Delivery}
    {world after : σ} {outcome : Except PyError OneWayOutcome}
    (h : dispatchOneWay app.application app.settlement
      (Py.lift (RabbitMq.decodeRabbitmqMessage app.metadataKeys delivery)) world = (outcome, after)) :
    RabbitMq.attend app {} delivery world = (outcome.map OneWayOutcome.result, after) := by
  have hhandle : app.handleMessage delivery world = (outcome.map OneWayOutcome.result, after) := by
    unfold RabbitMq.RabbitMqConsumerApp.handleMessage
    cases outcome with
    | error error => exact Py.bind_error h
    | ok outcome =>
        rw [Py.bind_ok h]
        rfl
  unfold RabbitMq.attend
  cases outcome with
  | error error => exact Py.bind_error hhandle
  | ok outcome =>
      rw [Py.bind_ok hhandle]
      rfl

theorem Kafka.continues_iff {app : Kafka.KafkaConsumerApp σ} {message : Kafka.KafkaMessage}
    (hrecord : message.error = false) {world : σ} :
    Kafka.Continues app message world ↔ ∃ outcome after, dispatchOneWay app.application app.settlement
      (Py.lift (Kafka.decodeKafkaMessage app.metadataKeys message)) world = (.ok outcome, after) := by
  cases hdispatch : dispatchOneWay app.application app.settlement
      (Py.lift (Kafka.decodeKafkaMessage app.metadataKeys message)) world with
  | mk outcome after =>
      have hattend := Kafka.attend_default hdispatch
      cases outcome with
      | ok outcome =>
          refine ⟨fun _ => ⟨outcome, after, rfl⟩, fun _ => ⟨outcome.result, after, ?_⟩⟩
          intro rest offsets
          rw [Kafka.runConsumerLoop, if_neg (by simp [hrecord]), Py.bind_ok (Py.onFirst_of hattend offsets)]
          unfold Kafka.settle
          cases app.settlement.acknowledges outcome.result with
          | true => rfl
          | false => rfl
      | error error =>
          constructor
          · rintro ⟨result, last, hcontinues⟩
            have hround : Kafka.runConsumerLoop app {} [some message] (world, fun _ => none) =
                (.error error, (after, fun _ => none)) := by
              rw [Kafka.runConsumerLoop, if_neg (by simp [hrecord]), Py.bind_error (Py.onFirst_of hattend _)]
            have hrun := hcontinues [] fun _ => none
            rw [hround] at hrun
            cases hrun
          · rintro ⟨outcome, last, hok⟩
            cases hok

theorem RabbitMq.continues_iff {app : RabbitMq.RabbitMqConsumerApp σ} {delivery : RabbitMq.Delivery} {world : σ} :
    RabbitMq.Continues app delivery world ↔ ∃ outcome after, dispatchOneWay app.application app.settlement
      (Py.lift (RabbitMq.decodeRabbitmqMessage app.metadataKeys delivery)) world = (.ok outcome, after) := by
  cases hdispatch : dispatchOneWay app.application app.settlement
      (Py.lift (RabbitMq.decodeRabbitmqMessage app.metadataKeys delivery)) world with
  | mk outcome after =>
      have hattend := RabbitMq.attend_default hdispatch
      cases outcome with
      | ok outcome =>
          refine ⟨fun _ => ⟨outcome, after, rfl⟩, fun _ => ⟨outcome.result, after, ?_⟩⟩
          intro rest told
          rw [RabbitMq.runConsumerLoop, Py.bind_ok (Py.onFirst_of hattend told)]
          rfl
      | error error =>
          constructor
          · rintro ⟨result, last, hcontinues⟩
            have hround : RabbitMq.runConsumerLoop app {} [some delivery] (world, []) =
                (.error error, (after, [])) := by
              rw [RabbitMq.runConsumerLoop, Py.bind_error (Py.onFirst_of hattend _)]
            have hrun := hcontinues [] []
            rw [hround] at hrun
            cases hrun
          · rintro ⟨outcome, last, hok⟩
            cases hok

-- What a producer sends ends no consumer, unless its body is no UTF-8.
theorem content_settled_iff (h : registry.Serves) (keys : MetadataKeys) (settlement : Settlement) (world : σ) :
    (∀ message : Kafka.KafkaMessage, message.error = false →
      (Kafka.Continues ⟨benzeneMessageApplication registry [] keys.version, keys, settlement⟩ message world ↔
        settlement.atMostOnce = true ∨ message.value.Readable)) ∧
    ∀ delivery : RabbitMq.Delivery,
      RabbitMq.Continues ⟨benzeneMessageApplication registry [] keys.version, keys, settlement⟩ delivery world ↔
        settlement.atMostOnce = true ∨ delivery.body.Readable := by
  constructor
  · intro message hrecord
    rw [Kafka.continues_iff hrecord]
    exact dispatchOneWay_ok_iff h keys.version settlement keys message.headers message.topic message.value world
  · intro delivery
    rw [RabbitMq.continues_iff]
    exact dispatchOneWay_ok_iff h keys.version settlement keys delivery.headers delivery.routingKey delivery.body world

end Loops

section Bodies

def ordersName : List UInt8 := [0x6F, 0x72, 0x64, 0x65, 0x72, 0x73]

-- A record for the one handler, with an object for its body and a header that is
-- no UTF-8.
def ordersRecord : Kafka.KafkaMessage :=
  { headers := [("x-tenant", .bytes [0xFF]), ("topic", .bytes ordersName)]
    value := .bytes [0x7B, 0x22, 0x69, 0x64, 0x22, 0x3A, 0x31, 0x7D]
    topic := .bytes [0x70, 0x31]
    offset := 7 }

def ordersDelivery : RabbitMq.Delivery :=
  { deliveryTag := 7
    routingKey := .bytes ordersName
    headers := [("x-tenant", .bytes [0xFF])]
    body := ordersRecord.value }

theorem content_settled_orders : letI := UnicodeData.ascii
    let consumer :=
      (⟨benzeneMessageApplication echoRegistry [] "benzene-version", {}, {}⟩ : Kafka.KafkaConsumerApp Unit)
    let receiver :=
      (⟨benzeneMessageApplication echoRegistry [] "benzene-version", {}, {}⟩ : RabbitMq.RabbitMqConsumerApp Unit)
    (Kafka.Continues consumer ordersRecord () ∧
      ¬Kafka.Continues consumer { ordersRecord with value := .bytes [0xFF] } ()) ∧
    RabbitMq.Continues receiver ordersDelivery () ∧
      ¬RabbitMq.Continues receiver { ordersDelivery with body := .bytes [0xFF] } () := by
  let _ := UnicodeData.ascii
  have h := content_settled_iff echoRegistry_serves {} {} ()
  have hreadable : ordersRecord.value.Readable := by
    show (Str.utf8Decode [0x7B, 0x22, 0x69, 0x64, 0x22, 0x3A, 0x31, 0x7D]).isSome = true
    decide +kernel
  have hunreadable : ¬(Native.bytes [0xFF]).Readable := by
    show ¬(Str.utf8Decode [0xFF]).isSome = true
    decide +kernel
  have hstrict : ¬({} : Settlement).atMostOnce = true := by decide
  refine ⟨⟨(h.1 ordersRecord rfl).mpr (.inr hreadable), ?_⟩, (h.2 ordersDelivery).mpr (.inr hreadable), ?_⟩
  · exact mt (h.1 { ordersRecord with value := .bytes [0xFF] } rfl).mp (not_or.mpr ⟨hstrict, hunreadable⟩)
  · exact mt (h.2 { ordersDelivery with body := .bytes [0xFF] }).mp (not_or.mpr ⟨hstrict, hunreadable⟩)

-- One byte that starts no character ends both loops.
theorem not_content_settled : letI := UnicodeData.ascii
    (¬∀ message : Kafka.KafkaMessage, message.error = false →
      Kafka.Continues ⟨benzeneMessageApplication echoRegistry [] "benzene-version", {}, {}⟩ message ()) ∧
    ¬∀ delivery : RabbitMq.Delivery,
      RabbitMq.Continues ⟨benzeneMessageApplication echoRegistry [] "benzene-version", {}, {}⟩ delivery () := by
  let _ := UnicodeData.ascii
  have hraised : decodeMessage {} [] .none (.bytes [0xFF]) = .error ⟨.unicodeDecodeError, []⟩ := rfl
  constructor
  · intro h
    have hcontinues := h { value := .bytes [0xFF] } rfl
    obtain ⟨outcome, after, hok⟩ := (Kafka.continues_iff rfl).mp hcontinues
    change dispatchOneWay _ _ (Py.lift (decodeMessage {} [] .none (.bytes [0xFF]))) () = _ at hok
    rw [dispatchOneWay_undecoded _ _ hraised] at hok
    cases hok
  · intro h
    have hcontinues := h { body := .bytes [0xFF] }
    obtain ⟨outcome, after, hok⟩ := RabbitMq.continues_iff.mp hcontinues
    change dispatchOneWay _ _ (Py.lift (decodeMessage {} [] .none (.bytes [0xFF]))) () = _ at hok
    rw [dispatchOneWay_undecoded _ _ hraised] at hok
    cases hok

end Bodies

end Benzene.Transport
