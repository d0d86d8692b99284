import Benzene.Core.Routing
import Benzene.Data.JsonRoundTrip
import Benzene.Results.Problems

namespace Benzene.Core

open Benzene.Data Benzene.Results

section Response

-- The response envelope.
structure Response where
  statusCode : Str
  isSuccessful : Bool
  headers : Fields
  body : Str

def Response.toJson (response : Response) : Json :=
  .obj [Json.field "statusCode" (.str response.statusCode),
    Json.field "isSuccessful" (.bool response.isSuccessful), Json.field "headers" (.obj response.headers),
    Json.field "body" (.str response.body)]

-- The problem document of a failed result; an application's own one as it is.
def errorPayload {α : Type} (result : Result α) : Fields :=
  match result.problemDocument with
  | some document => document.toPayload
  | none =>
      Json.optionalField "type" (problemType result.status) ++
        Json.optionalField "title" (problemTitle result.status) ++
        [Json.field "detail" (.str (Str.join ", " result.messages)),
          Json.field "benzeneStatus" (.str result.status)] ++
        if result.errors = [] then []
        else [Json.field "errors" (.arr (result.errors.map BenzeneError.toPayload))]

def contentType (type : Str) : Fields := [Json.field "content-type" (.str type)]

def noResult : Result Value := Result.failed Status.unexpectedError "The pipeline produced no result"

variable [UnicodeData]

def encodeResponse (result : Option (Result Value)) : Except PyError Response := do
  let result := result.getD noResult
  if result.isSuccessful then
    let body ← match result.payload with
      | none => .ok []
      | some payload => dumpPayload payload
    return ⟨result.status, true, contentType "application/json", body⟩
  else
    return ⟨result.status, false, contentType "application/problem+json",
      Json.dumpsWith .spaced (.obj (errorPayload result))⟩

-- Whether a failed response's body is a problem document.
def looksLikeProblem (parsed : Fields) : Bool :=
  (Entries.get? ("benzeneStatus" : Str) parsed).isSome || (Entries.get? ("errors" : Str) parsed).isSome ||
    (Entries.get? ("detail" : Str) parsed).isSome

-- Only a classification that differs from the status's own is recorded.
def stated (status : Str) (successful : Bool) : Option Bool :=
  if successful = isSuccessful status then none else some successful

-- An envelope's absent members read as the empty text, and as not successful.
def decodeResponse (response : Response) : Result Json :=
  let status := if response.statusCode = [] then Status.unexpectedError else response.statusCode
  let successful := response.isSuccessful
  if response.body = [] then ⟨status, none, [], none, stated status successful⟩
  else match Json.loads response.body with
    | none =>
        if successful then
          Result.unexpectedError (("response body is not valid JSON: " : Str) ++ Str.repr response.body)
        else ⟨status, none, [], none, stated status successful⟩
    | some (.obj parsed) =>
        if !successful && looksLikeProblem parsed then
          let status := if response.statusCode = [] then (problemStatus parsed).getD status else status
          ⟨status, none, problemErrors parsed, none, stated status successful⟩
        else ⟨status, some (.obj parsed), [], none, stated status successful⟩
    | some parsed => ⟨status, some parsed, [], none, stated status successful⟩

end Response

section Handle

variable [UnicodeData]

-- `{k.lower(): v for k, v in headers.items()}`: a later key takes an earlier one's place.
def lowerKeys (headers : Fields) : Fields :=
  Entries.update [] (headers.map fun header => (Str.lower header.1, header.2))

-- A mapping only has items.
def items : Json → Except PyError Fields
  | .obj fields => .ok fields
  | _ => .error ⟨.attributeError, []⟩

-- An absent version routes to the topic's default handler.
def resolveVersion (headers : Fields) (name : Str) : Json :=
  Json.orElse (Json.getField headers (Str.lower name)) (.str [])

-- An empty body is an empty object; `json.loads` takes texts only.
def readBody (body : Json) : Option Json :=
  if body.truthy then
    match body with
    | .str text => Json.loads text
    | _ => none
  else some (.obj [])

-- The entry point's pipeline, its router last, and the header it reads a version from.
structure BenzeneMessageApplication (σ : Type) where
  pipeline : List (Middleware σ)
  versionHeader : Str

def benzeneMessageApplication {σ τ : Type} (registry : Registry σ τ) (pipeline : List (Middleware σ))
    (versionKey : Str) : BenzeneMessageApplication σ :=
  ⟨pipeline ++ [messageRouter registry], Str.lower versionKey⟩

namespace BenzeneMessageApplication

variable {σ : Type} (application : BenzeneMessageApplication σ)

-- The context a request's pipeline leaves.
def run (context : Context) : Py PyError σ Context := fun world =>
  match runPipeline application.pipeline (context, world) with
  | (outcome, (after, world)) => (outcome.map fun _ => after, world)

-- A response tells the version that the request declared.
def echoVersion (version : Json) (response : Response) : Response :=
  if version.truthy then
    { response with headers := Entries.set application.versionHeader version response.headers }
  else response

-- What an envelope declares.
def declaredTopic (requestEnvelope : Fields) : Json :=
  Json.orElse (Json.getField requestEnvelope "topic") (.str [])

def declaredHeaders (requestEnvelope : Fields) : Except PyError Fields := do
  return lowerKeys (← items (Json.orElse (Json.getField requestEnvelope "headers") (.obj [])))

def declaredBody (requestEnvelope : Fields) : Option Json :=
  readBody (Json.orElse (Json.getField requestEnvelope "body") (.str []))

def handle (requestEnvelope : Fields) (ignoreUnmatchedTopic : Bool) : Py PyError σ Response := do
  let topic := declaredTopic requestEnvelope
  let headers ← Py.lift (declaredHeaders requestEnvelope)
  let version := resolveVersion headers application.versionHeader
  match declaredBody requestEnvelope with
  | none => Py.lift (encodeResponse (some (Result.badRequest "Request body is not valid JSON")))
  | some parsed =>
      let context ← application.run ⟨topic, parsed, lowerKeys headers, version, none, ignoreUnmatchedTopic⟩
      let response ← Py.lift (encodeResponse context.result)
      return application.echoVersion version response

theorem handle_badHeaders {requestEnvelope : Fields} {error : PyError}
    (hh : declaredHeaders requestEnvelope = .error error) (ignoreUnmatchedTopic : Bool) (world : σ) :
    application.handle requestEnvelope ignoreUnmatchedTopic world = (.error error, world) := by
  unfold handle
  rw [hh]
  rfl

theorem handle_badBody {requestEnvelope headers : Fields}
    (hh : declaredHeaders requestEnvelope = .ok headers) (hb : declaredBody requestEnvelope = none)
    (ignoreUnmatchedTopic : Bool) (world : σ) :
    application.handle requestEnvelope ignoreUnmatchedTopic world =
      (encodeResponse (some (Result.badRequest "Request body is not valid JSON")), world) := by
  unfold handle
  rw [hh, hb]
  rfl

theorem handle_parsed {requestEnvelope headers : Fields} {parsed : Json}
    (hh : declaredHeaders requestEnvelope = .ok headers)
    (hb : declaredBody requestEnvelope = some parsed) (ignoreUnmatchedTopic : Bool) (world : σ) :
    application.handle requestEnvelope ignoreUnmatchedTopic world =
      match application.run ⟨declaredTopic requestEnvelope, parsed, lowerKeys headers,
        resolveVersion headers application.versionHeader, none, ignoreUnmatchedTopic⟩ world with
      | (.error error, world') => (.error error, world')
      | (.ok context, world') => ((encodeResponse context.result).map (application.echoVersion
          (resolveVersion headers application.versionHeader)), world') := by
  unfold handle
  rw [hh, hb]
  show (application.run _ >>= fun _ => _) world = _
  rw [Py.bind_apply]
  cases application.run ⟨declaredTopic requestEnvelope, parsed, lowerKeys headers,
      resolveVersion headers application.versionHeader, none, ignoreUnmatchedTopic⟩ world with
  | mk outcome world' =>
      cases outcome with
      | error error => rfl
      | ok context =>
          dsimp only
          cases encodeResponse context.result <;> rfl

end BenzeneMessageApplication

end Handle

section ReadBack

theorem isSuccessful_stated {α : Type} (status : Str) (payload : Option α) (errors : List BenzeneError)
    (successful : Bool) :
    (⟨status, payload, errors, none, stated status successful⟩ : Result α).isSuccessful = successful := by
  unfold stated Result.isSuccessful
  by_cases h : successful = isSuccessful status
  · simp [h]
  · simp [h]

variable [UnicodeData]

theorem dumpPayload_text {payload : Value} {text : Str} (h : dumpPayload payload = .ok text) :
    ∃ j, text = Json.dumpsWith .spaced j := by
  unfold dumpPayload at h
  cases hj : toJsonable payload with
  | error error =>
      rw [hj] at h
      cases h
  | ok jsonable =>
      rw [hj] at h
      change (asJson jsonable >>= fun j => _) = _ at h
      cases ha : asJson jsonable with
      | error error =>
          rw [ha] at h
          cases h
      | ok j =>
          rw [ha] at h
          cases h
          exact ⟨j, rfl⟩

-- A body is empty or a JSON text.
theorem encodeResponse_body {result : Option (Result Value)} {response : Response}
    (h : encodeResponse result = .ok response) :
    response.isSuccessful = (result.getD noResult).isSuccessful ∧
      (response.body = [] ∨ ∃ j, response.body = Json.dumpsWith .spaced j) := by
  simp only [encodeResponse] at h
  by_cases hs : (result.getD noResult).isSuccessful = true
  · rw [if_pos hs] at h
    cases hp : (result.getD noResult).payload with
    | none =>
        rw [hp] at h
        cases h
        exact ⟨hs.symm, .inl rfl⟩
    | some payload =>
        simp only [hp] at h
        cases hd : dumpPayload payload with
        | error error =>
            rw [hd] at h
            cases h
        | ok text =>
            rw [hd] at h
            cases h
            exact ⟨hs.symm, .inr (dumpPayload_text hd)⟩
  · rw [if_neg hs] at h
    cases h
    exact ⟨(Bool.eq_false_of_not_eq_true hs).symm, .inr ⟨_, rfl⟩⟩

-- The receiver reads the truth value that the sender's result carried.
theorem decodeResponse_isSuccessful {result : Option (Result Value)} {response : Response}
    (h : encodeResponse result = .ok response) :
    (decodeResponse response).isSuccessful = (result.getD noResult).isSuccessful := by
  obtain ⟨hs, hbody⟩ := encodeResponse_body h
  rw [← hs]
  unfold decodeResponse
  by_cases hb : response.body = []
  · simp only [hb, if_true]
    exact isSuccessful_stated _ _ _ _
  · obtain ⟨j, hj⟩ := hbody.resolve_left hb
    have hl : Json.loads response.body = some j.reread := by
      rw [hj]
      exact Json.loads_dumpsWith .spaced j
    simp only [hb, if_false, hl]
    cases hr : j.reread with
    | obj parsed =>
        dsimp only
        split
        · exact isSuccessful_stated _ _ _ _
        · exact isSuccessful_stated _ _ _ _
    | null | bool _ | int _ | float _ | str _ | arr _ => exact isSuccessful_stated _ _ _ _

end ReadBack

section Content

variable [UnicodeData] {σ τ : Type}

-- What `json.dumps` takes as a response's body.
def Writable (result : Result Value) : Prop :=
  result.isSuccessful = true → ∀ payload, result.payload = some payload →
    ∃ text, dumpPayload payload = .ok text

theorem writable_failed {status : Str} (message : Str) (h : status ∈ failureStatuses) :
    Writable (Result.failed status message) := by
  intro hs
  have hf : Results.isSuccessful status = true := hs
  rw [isSuccessful_failure h] at hf
  exact absurd hf (by simp)

theorem writable_of_noPayload {result : Result Value} (h : result.payload = none) : Writable result := by
  intro _ payload hp
  rw [h] at hp
  cases hp

theorem encodeResponse_of_writable {result : Result Value} (h : Writable result) :
    ∃ response, encodeResponse (some result) = .ok response := by
  simp only [encodeResponse, Option.getD_some]
  by_cases hs : result.isSuccessful = true
  · rw [if_pos hs]
    cases hp : result.payload with
    | none => exact ⟨_, rfl⟩
    | some payload =>
        obtain ⟨text, ht⟩ := h hs payload hp
        simp only [ht]
        exact ⟨_, rfl⟩
  · rw [if_neg hs]
    exact ⟨_, rfl⟩

-- Handlers that return results that can be written, and raise nothing that
-- stops the interpreter or a task.
structure HandlerDefinition.Serves (definition : HandlerDefinition σ τ) : Prop where
  maps : ∀ data error, toRequest definition.requestType data = .error error → error.isException = true
  returns : ∀ request world result, (definition.handler request world).1 = .ok result → Writable result
  raises : ∀ request world error, (definition.handler request world).1 = .error error →
    error.isException = true

def Registry.Serves (registry : Registry σ τ) : Prop :=
  ∀ definition ∈ registry.definitions, definition.Serves

theorem runHandler_writable {definition : HandlerDefinition σ τ} (h : definition.Serves) (data : Json)
    (world : σ) : ∃ result world', runHandler definition data world = (.ok result, world') ∧
      Writable result := by
  unfold runHandler
  cases hr : toRequest definition.requestType data with
  | error error =>
      have he := h.maps data error hr
      simp only [he, if_true]
      exact ⟨_, world, rfl, writable_failed _ (by decide)⟩
  | ok request =>
      have hreturns := h.returns request world
      have hraises := h.raises request world
      simp only [Py.tryCatch]
      cases ho : definition.handler request world with
      | mk outcome world' =>
          rw [ho] at hreturns hraises
          cases outcome with
          | ok result => exact ⟨result, world', rfl, hreturns result rfl⟩
          | error error =>
              have he := hraises error rfl
              simp only [he, if_true]
              exact ⟨_, world', rfl, writable_failed _ (by decide)⟩

-- The router sets a result that can be written, or raises on an unhashable key.
theorem messageRouter_routable {registry : Registry σ τ} (h : registry.Serves) (next : Step σ Unit)
    (context : Context) (hr : Routable context.topic context.version) (world : σ) :
    ∃ result world', messageRouter registry next (context, world) =
      (.ok (), ({ context with result := some result }, world')) ∧ Writable result := by
  unfold messageRouter
  rw [Py.bind_ok (Py.get_apply _)]
  by_cases ht : context.topic.truthy = true
  · simp only [ht, Bool.not_true, Bool.false_eq_true, if_false]
    by_cases hp : context.topic = .str pingTopic
    · rw [if_pos hp]
      exact ⟨_, world, rfl, writable_of_noPayload rfl⟩
    · rw [if_neg hp]
      obtain ⟨hhash, hversion⟩ := hr ht hp
      obtain ⟨found, hf, hmem⟩ := exactVersion_of_hashable registry hhash hversion
      rw [hf, Py.lift_ok_bind]
      cases found with
      | none =>
          dsimp only
          split
          · exact ⟨_, world, rfl, writable_of_noPayload rfl⟩
          · exact ⟨_, world, rfl, writable_failed _ (by decide)⟩
      | some definition =>
          obtain ⟨result, world', hrun, hw⟩ :=
            runHandler_writable (h definition (hmem definition rfl)) context.request world
          have hin : inWorld (runHandler definition context.request) (context, world) =
              (.ok result, (context, world')) := by
            simp only [inWorld, hrun]
          dsimp only
          rw [Py.bind_ok hin]
          exact ⟨result, world', rfl, hw⟩
  · simp only [ht, Bool.not_false, if_true]
    exact ⟨_, world, rfl, writable_failed _ (by decide)⟩

theorem messageRouter_unroutable (registry : Registry σ τ) (next : Step σ Unit) (context : Context)
    (hr : ¬ Routable context.topic context.version) (world : σ) :
    messageRouter registry next (context, world) = (.error ⟨.typeError, []⟩, (context, world)) := by
  unfold Routable at hr
  rw [Classical.not_imp, Classical.not_imp] at hr
  obtain ⟨ht, hp, hkey⟩ := hr
  unfold messageRouter
  rw [Py.bind_ok (Py.get_apply _)]
  simp only [ht, Bool.not_true, Bool.false_eq_true, if_false]
  rw [if_neg hp, exactVersion_unhashable registry hkey]
  rfl

end Content

section Answers

variable [UnicodeData]

open BenzeneMessageApplication

-- Headers that are a mapping if they are anything, and a topic and a version
-- that can be looked up if the body lets the message get to the router.
structure Answerable (versionHeader : Str) (requestEnvelope : Fields) : Prop where
  headers : (Json.getField requestEnvelope "headers").truthy = true →
    ∃ headers, Json.getField requestEnvelope "headers" = .obj headers
  key : (declaredBody requestEnvelope).isSome → ∀ headers,
    declaredHeaders requestEnvelope = .ok headers →
      Routable (declaredTopic requestEnvelope) (resolveVersion headers versionHeader)

theorem declaredHeaders_ok_iff (requestEnvelope : Fields) :
    (∃ headers, declaredHeaders requestEnvelope = .ok headers) ↔
      ((Json.getField requestEnvelope "headers").truthy = true →
        ∃ headers, Json.getField requestEnvelope "headers" = .obj headers) := by
  unfold declaredHeaders Json.orElse
  by_cases ht : (Json.getField requestEnvelope "headers").truthy = true
  · simp only [ht, if_true, true_implies]
    cases Json.getField requestEnvelope "headers" with
    | obj fields => exact ⟨fun _ => ⟨fields, rfl⟩, fun _ => ⟨_, rfl⟩⟩
    | null | bool _ | int _ | float _ | str _ | arr _ =>
        constructor
        · rintro ⟨headers, h⟩
          cases h
        · rintro ⟨headers, h⟩
          cases h
  · simp only [ht]
    exact ⟨fun _ h => (Bool.false_ne_true h).elim, fun _ => ⟨_, rfl⟩⟩

variable {σ τ : Type}

-- Without middlewares of the application's, the pipeline is the router.
theorem run_messageRouter (registry : Registry σ τ) (versionKey : Str) (context : Context) (world : σ) :
    (benzeneMessageApplication registry [] versionKey).run context world =
      match messageRouter registry (pure ()) (context, world) with
      | (outcome, (after, world)) => (outcome.map fun _ => after, world) := rfl

theorem handle_ok_iff {registry : Registry σ τ} (h : registry.Serves) (versionKey : Str)
    (requestEnvelope : Fields) (ignoreUnmatchedTopic : Bool) (world : σ) :
    (∃ response, ((benzeneMessageApplication registry [] versionKey).handle requestEnvelope
      ignoreUnmatchedTopic world).1 = .ok response) ↔
      Answerable (Str.lower versionKey) requestEnvelope := by
  have hheaders := declaredHeaders_ok_iff requestEnvelope
  cases hd : declaredHeaders requestEnvelope with
  | error error =>
      rw [handle_badHeaders _ hd]
      constructor
      · rintro ⟨response, hr⟩
        cases hr
      · intro ha
        obtain ⟨headers, hok⟩ := hheaders.mpr ha.headers
        rw [hd] at hok
        cases hok
  | ok headers =>
      have hobject := hheaders.mp ⟨headers, hd⟩
      cases hb : declaredBody requestEnvelope with
      | none =>
          have hw : Writable (Result.badRequest "Request body is not valid JSON") :=
            writable_failed _ (by decide)
          obtain ⟨response, hr⟩ := encodeResponse_of_writable hw
          rw [handle_badBody _ hd hb, hr]
          exact ⟨fun _ => ⟨hobject, by simp [hb]⟩, fun _ => ⟨response, rfl⟩⟩
      | some parsed =>
          have hversion : (benzeneMessageApplication registry [] versionKey).versionHeader =
            Str.lower versionKey := rfl
          have hkey : Answerable (Str.lower versionKey) requestEnvelope ↔
              Routable (declaredTopic requestEnvelope) (resolveVersion headers (Str.lower versionKey)) := by
            constructor
            · intro ha
              exact ha.key (by simp [hb]) headers hd
            · intro hr
              refine ⟨hobject, fun _ other ho => ?_⟩
              rw [hd] at ho
              cases ho
              exact hr
          rw [hkey, handle_parsed _ hd hb, run_messageRouter, hversion]
          by_cases hr : Routable (declaredTopic requestEnvelope)
              (resolveVersion headers (Str.lower versionKey))
          · obtain ⟨result, world', hrouter, hw⟩ := messageRouter_routable h (pure ())
              ⟨declaredTopic requestEnvelope, parsed, lowerKeys headers,
                resolveVersion headers (Str.lower versionKey), none, ignoreUnmatchedTopic⟩ hr world
            obtain ⟨response, hresponse⟩ := encodeResponse_of_writable hw
            rw [hrouter]
            simp only [Except.map, hresponse]
            exact ⟨fun _ => hr, fun _ => ⟨_, rfl⟩⟩
          · have hrouter := messageRouter_unroutable registry (pure ())
              ⟨declaredTopic requestEnvelope, parsed, lowerKeys headers,
                resolveVersion headers (Str.lower versionKey), none, ignoreUnmatchedTopic⟩ hr world
            rw [hrouter]
            refine ⟨?_, fun hr' => absurd hr' hr⟩
            rintro ⟨response, hok⟩
            cases hok

end Answers

end Benzene.Core
