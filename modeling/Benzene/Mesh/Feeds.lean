import Benzene.Mesh.Ingest

namespace Benzene.Mesh

open Benzene.Data

-- One invocation's trace record, as a service reports it.
structure TraceEvent where
  traceId : Str
  spanId : Str
  service : Str
  topic : Str
  status : Str
  parentSpanId : Option Str := none
  instanceId : Option Str := none
  topicVersion : Option Str := none
  exceptionType : Option Str := none
  durationMs : Option PyFloat := none
  startedAt : Option Str := none
  correlationId : Option Str := none
deriving DecidableEq

namespace TraceEvent

-- What is not known is left out, never written as null.
def toPayload (event : TraceEvent) : Fields :=
  [Json.field "traceId" (.str event.traceId), Json.field "spanId" (.str event.spanId),
    Json.field "service" (.str event.service), Json.field "topic" (.str event.topic),
    Json.field "status" (.str event.status)] ++
  Json.optionalField "parentSpanId" event.parentSpanId ++
  Json.optionalField "instanceId" event.instanceId ++
  Json.optionalField "topicVersion" event.topicVersion ++
  Json.optionalField "exceptionType" event.exceptionType ++
  (match event.durationMs with
    | some duration => [Json.field "durationMs" (.float duration)]
    | none => []) ++
  Json.optionalField "startedAt" event.startedAt ++
  Json.optionalField "correlationId" event.correlationId

end TraceEvent

-- A batch for the traces feed.
def tracePost (events : List TraceEvent) : Post :=
  ⟨.traces, [Json.field "events" (.arr (events.map fun event => .obj event.toPayload))]⟩

section Decoding

theorem durationMs_float (x : PyFloat) : ∃ duration, durationMs (.float x) = .ok duration := by
  cases x <;> exact ⟨_, rfl⟩

variable [UnicodeData]

-- A reported event always decodes, to what it says.
theorem decodeEvent_toPayload (event : TraceEvent) :
    ∃ decoded, decodeEvent (.obj event.toPayload) = .ok decoded ∧
      decoded.traceId = event.traceId ∧ decoded.spanId = event.spanId ∧
      decoded.service = event.service ∧ decoded.topic = event.topic ∧
      decoded.status = event.status ∧ decoded.parentSpanId = optionalJson event.parentSpanId := by
  have hduration : ∃ duration,
      durationMs (Json.getField event.toPayload "durationMs") = .ok duration := by
    cases hd : event.durationMs with
    | none => exact ⟨.finite (Decimal.ofParts 0 0), by
        simp [TraceEvent.toPayload, Json.getField, Json.field, Entries.get?_append, Json.get?_optionalField, hd,
          durationMs]⟩
    | some x =>
        obtain ⟨duration, hx⟩ := durationMs_float x
        exact ⟨duration, by
          simp [TraceEvent.toPayload, Json.getField, Json.field, Entries.get?_append, Json.get?_optionalField, hd,
            hx]⟩
  obtain ⟨duration, hduration⟩ := hduration
  refine ⟨_, by simp only [decodeEvent, hduration]; rfl, ?_, ?_, ?_, ?_, ?_, ?_⟩
  case refine_6 =>
    cases hparent : event.parentSpanId <;>
      cases hd : event.durationMs <;>
        simp [TraceEvent.toPayload, Json.getField, Json.field, Entries.get?_append,
          Json.get?_optionalField, hparent, hd, optionalJson]
  all_goals simp [TraceEvent.toPayload, textField, Json.field, Json.text]

end Decoding

end Benzene.Mesh
