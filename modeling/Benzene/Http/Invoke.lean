import Benzene.Core.Envelope

namespace Benzene.Http

open Benzene.Data Benzene.Results Benzene.Core
open BenzeneMessageApplication (declaredTopic declaredHeaders declaredBody)

section Status

def benzeneToHttp : List (Str × Int) :=
  [(Status.ok, 200), (Status.ignored, 200), (Status.created, 201), (Status.accepted, 202),
    (Status.updated, 204), (Status.deleted, 204), (Status.badRequest, 400),
    (Status.unauthorized, 401), (Status.forbidden, 403), (Status.notFound, 404),
    (Status.conflict, 409), (Status.validationError, 422), (Status.tooManyRequests, 429),
    (Status.unexpectedError, 500), (Status.notImplemented, 501), (Status.serviceUnavailable, 503),
    (Status.timeout, 504)]

-- An application's own status has no row.
def toHttp (status : Str) (isSuccessful : Bool) : Int :=
  (Entries.get? status benzeneToHttp).getD (if isSuccessful then 200 else 500)

-- The two tables of one status agree.
theorem toHttp_problemRegistry :
    ∀ row ∈ problemRegistry, toHttp row.1 false = row.2.httpStatus := by decide

end Status

section Invoke

structure HttpResponse where
  statusCode : Int
  headers : List (Str × Str)
  body : Str

-- `invokeTopics` is whatever supports `in`, which may raise on what it cannot hash.
structure StandardPaths where
  invokeTopics : Option (Json → Except PyError Bool) := none

def httpProblemResponse (result : Result Value) : HttpResponse :=
  let httpStatus := toHttp result.status result.isSuccessful
  ⟨httpStatus, [("content-type", "application/problem+json")],
    Json.dumpsWith .spaced (.obj (Entries.set "status" (.int httpStatus) (errorPayload result)))⟩

def notAnEnvelope : HttpResponse :=
  httpProblemResponse (Result.failed Status.badRequest
    ("Request body must be a JSON message envelope: " ++ "\x7btopic, headers, body\x7d" : String))

variable [UnicodeData] {σ τ : Type}

-- Whether the endpoint reaches a topic; an absent one is left to the router.
def reaches (std : StandardPaths) (topic : Json) : Except PyError Bool :=
  match std.invokeTopics with
  | none => .ok true
  | some contains => if topic.truthy then contains topic else .ok true

-- The message a posted envelope is handed on as.
def forwarded (envelope : Fields) : Fields :=
  [Json.field "topic" (declaredTopic envelope),
    Json.field "headers" (Json.orElse (Json.getField envelope "headers") (.obj [])),
    Json.field "body" (Json.orElse (Json.getField envelope "body") (.str []))]

-- No text at all is an empty envelope.
def posted (body : Str) : Option Json :=
  if body = [] then some (.obj []) else Json.loads body

-- The body of a POST to the invoke path, where the endpoint is on.
def invoke (std : StandardPaths) (application : BenzeneMessageApplication σ) (body : Str) :
    Py PyError σ HttpResponse :=
  match posted body with
  | some (.obj envelope) => do
      let topic := declaredTopic envelope
      let response ←
        if ← Py.lift (reaches std topic) then application.handle (forwarded envelope) false
        else Py.lift (encodeResponse (some (Result.notFound
          (("No handler found for topic " : Str) ++ topic.repr))))
      return ⟨200, [("content-type", "application/json")], Json.dumpsWith .spaced response.toJson⟩
  | _ => pure notAnEnvelope

end Invoke

section Answers

theorem orElse_orElse (x y : Json) : Json.orElse (Json.orElse x y) y = Json.orElse x y := by
  by_cases hx : x.truthy = true
  · simp [Json.orElse, hx]
  · by_cases hy : y.truthy = true <;> simp [Json.orElse, hx]

-- Handing an envelope on does not change what it declares.
theorem declaredTopic_forwarded (envelope : Fields) :
    declaredTopic (forwarded envelope) = declaredTopic envelope :=
  orElse_orElse _ _

theorem declaredBody_forwarded (envelope : Fields) :
    declaredBody (forwarded envelope) = declaredBody envelope := by
  have h : Json.getField (forwarded envelope) "body" =
      Json.orElse (Json.getField envelope "body") (.str []) := rfl
  unfold declaredBody
  rw [h, orElse_orElse]

variable [UnicodeData] {σ τ : Type}

theorem declaredHeaders_forwarded (envelope : Fields) :
    declaredHeaders (forwarded envelope) = declaredHeaders envelope := by
  have h : Json.getField (forwarded envelope) "headers" =
      Json.orElse (Json.getField envelope "headers") (.obj []) := rfl
  unfold declaredHeaders
  rw [h, orElse_orElse]

theorem answerable_forwarded (versionHeader : Str) (envelope : Fields) :
    Answerable versionHeader (forwarded envelope) ↔ Answerable versionHeader envelope := by
  have hh := (declaredHeaders_ok_iff (forwarded envelope)).symm.trans
    ((by rw [declaredHeaders_forwarded]) : _ ↔ ∃ headers, declaredHeaders envelope = .ok headers)
  have hheaders := hh.trans (declaredHeaders_ok_iff envelope)
  constructor
  · rintro ⟨headers, key⟩
    rw [declaredBody_forwarded, declaredHeaders_forwarded, declaredTopic_forwarded] at key
    exact ⟨hheaders.mp headers, key⟩
  · rintro ⟨headers, key⟩
    refine ⟨hheaders.mpr headers, ?_⟩
    rw [declaredBody_forwarded, declaredHeaders_forwarded, declaredTopic_forwarded]
    exact key

-- A posted text that is no envelope, or one the endpoint refuses to reach, or one
-- that the application answers.
def InvokeAnswerable (std : StandardPaths) (versionHeader body : Str) : Prop :=
  ∀ envelope, posted body = some (.obj envelope) →
    ∃ reached, reaches std (declaredTopic envelope) = .ok reached ∧
      (reached = true → Answerable versionHeader envelope)

theorem invoke_envelope (std : StandardPaths) (application : BenzeneMessageApplication σ) {body : Str}
    {envelope : Fields} (h : posted body = some (.obj envelope)) (world : σ) :
    (∃ response, (invoke std application body world).1 = .ok response) ↔
      ∃ reached, reaches std (declaredTopic envelope) = .ok reached ∧ (reached = true →
        ∃ response, (application.handle (forwarded envelope) false world).1 = .ok response) := by
  unfold invoke
  rw [h]
  dsimp only
  cases hreach : reaches std (declaredTopic envelope) with
  | error error =>
      constructor
      · rintro ⟨response, hr⟩
        cases hr
      · rintro ⟨reached, hr, _⟩
        cases hr
  | ok reached =>
      rw [Py.lift_ok_bind]
      cases reached with
      | false =>
          have hfailure : Status.notFound ∈ failureStatuses := by decide
          obtain ⟨response, hresponse⟩ := encodeResponse_of_writable (writable_failed
            (("No handler found for topic " : Str) ++ (declaredTopic envelope).repr) hfailure)
          have he : encodeResponse (some (Result.notFound
              (("No handler found for topic " : Str) ++ (declaredTopic envelope).repr))) =
              .ok response := hresponse
          simp only [Bool.false_eq_true, if_false]
          rw [he]
          exact ⟨fun _ => ⟨false, rfl, fun hf => absurd hf (by simp)⟩, fun _ => ⟨_, rfl⟩⟩
      | true =>
          simp only [if_true]
          cases hrun : application.handle (forwarded envelope) false world with
          | mk outcome world' =>
              cases outcome with
              | error error =>
                  rw [Py.bind_error hrun]
                  constructor
                  · rintro ⟨response, hr⟩
                    cases hr
                  · rintro ⟨reached, hr, himp⟩
                    cases hr
                    obtain ⟨response, hok⟩ := himp rfl
                    cases hok
              | ok response =>
                  rw [Py.bind_ok hrun]
                  exact ⟨fun _ => ⟨true, rfl, fun _ => ⟨response, rfl⟩⟩, fun _ => ⟨_, rfl⟩⟩

theorem invoke_notEnvelope (std : StandardPaths) (application : BenzeneMessageApplication σ) {body : Str}
    (h : ∀ envelope, posted body ≠ some (.obj envelope)) (world : σ) :
    invoke std application body world = (.ok notAnEnvelope, world) := by
  unfold invoke
  cases hp : posted body with
  | none => rfl
  | some parsed =>
      cases parsed with
      | obj envelope => exact absurd hp (h envelope)
      | null | bool _ | int _ | float _ | str _ | arr _ => rfl

-- The entry point answers for every envelope and every posted text, unless the
-- headers are no mapping or a key cannot be hashed.
theorem entryPoint_answers_iff {registry : Registry σ τ} (h : registry.Serves) (versionKey : Str)
    (world : σ) :
    (∀ requestEnvelope ignoreUnmatchedTopic,
      (∃ response, ((benzeneMessageApplication registry [] versionKey).handle requestEnvelope
        ignoreUnmatchedTopic world).1 = .ok response) ↔
          Answerable (Str.lower versionKey) requestEnvelope) ∧
    ∀ std body,
      (∃ response, (invoke std (benzeneMessageApplication registry [] versionKey) body world).1 =
        .ok response) ↔ InvokeAnswerable std (Str.lower versionKey) body := by
  refine ⟨fun envelope ignore => handle_ok_iff h versionKey envelope ignore world, ?_⟩
  intro std body
  by_cases hp : ∃ envelope, posted body = some (.obj envelope)
  · obtain ⟨envelope, hp⟩ := hp
    rw [invoke_envelope std _ hp world, handle_ok_iff h, answerable_forwarded]
    constructor
    · intro ⟨reached, hr, himp⟩ other ho
      rw [hp] at ho
      cases ho
      exact ⟨reached, hr, himp⟩
    · intro ha
      exact ha envelope hp
  · have hnot : ∀ envelope, posted body ≠ some (.obj envelope) := fun envelope he => hp ⟨envelope, he⟩
    rw [invoke_notEnvelope std _ hnot world]
    exact ⟨fun _ envelope he => absurd he (hnot envelope), fun _ => ⟨_, rfl⟩⟩

end Answers

section Runs

-- One handler, whose payload can be written.
def echoRegistry : Registry Unit Unit :=
  ⟨Dict.ofEntries [(("orders", []), ⟨"orders", fun _ => pure (Result.ok (some (.str "done"))), [], none, false⟩)]⟩

theorem echoRegistry_serves : @Registry.Serves UnicodeData.ascii _ _ echoRegistry := by
  let _ := UnicodeData.ascii
  intro definition hd
  have he : definition = ⟨"orders", fun _ => pure (Result.ok (some (.str "done"))), [], none, false⟩ := by
    simpa [Registry.definitions, echoRegistry, Dict.values, Dict.ofEntries, Entries.update, Entries.set]
      using hd
  subst he
  exact {
    maps := fun data error h => by cases h
    returns := fun request world result h => by
      cases h
      intro _ payload hp
      cases hp
      exact ⟨_, rfl⟩
    raises := fun request world error h => by cases h }

-- A message for the one handler is answered at both entries.
theorem entryPoint_answers_orders : letI := UnicodeData.ascii
    Answerable (Str.lower "benzene-version") [Json.field "topic" (.str "orders")] ∧
      InvokeAnswerable ⟨none⟩ (Str.lower "benzene-version")
        (Json.dumps (.obj [Json.field "topic" (.str "orders")])) := by
  let _ := UnicodeData.ascii
  have h := entryPoint_answers_iff echoRegistry_serves "benzene-version" ()
  exact ⟨(h.1 _ false).mp (Except.isOk_iff.mp (by decide +kernel)),
    (h.2 _ _).mp (Except.isOk_iff.mp (by decide +kernel))⟩

-- A list in the place of the headers, or of the topic, is raised at both entries.
theorem entryPoint_raises : letI := UnicodeData.ascii
    ∃ registry : Registry Unit Unit, registry.Serves ∧
      let application := benzeneMessageApplication registry [] "benzene-version"
      ∀ envelope ∈ [[Json.field "headers" (.arr [.int 1])], [Json.field "topic" (.arr [.int 1])]],
        (application.handle envelope false ()).1.isOk = false ∧
          (invoke ⟨none⟩ application (Json.dumps (.obj envelope)) ()).1.isOk = false := by
  let _ := UnicodeData.ascii
  exact ⟨echoRegistry, echoRegistry_serves, by decide +kernel⟩

end Runs

end Benzene.Http
