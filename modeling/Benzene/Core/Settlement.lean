import Benzene.Core.Envelope

namespace Benzene.Core

open Benzene.Data Benzene.Results
open BenzeneMessageApplication (declaredTopic declaredHeaders declaredBody)

section Settling

-- How a one-way binding settles its messages; successes only by default.
structure Settlement where
  atMostOnce : Bool := false
  ignoreUnmatchedTopics : Bool := false

def Settlement.acknowledges {α : Type} (settlement : Settlement) (result : Result α) : Bool :=
  settlement.atMostOnce || result.isSuccessful

structure OneWayOutcome where
  topic : Str
  result : Result Json
  response : Option Response
  acknowledge : Bool
  error : Option PyError := none

variable [UnicodeData] {σ : Type}

-- An exception is the binding's, or with `atMostOnce` the end of the message.
def settleError (settlement : Settlement) (topic : Str) (error : PyError) : Py PyError σ OneWayOutcome :=
  if settlement.atMostOnce && error.isException then
    pure ⟨topic, Result.unexpectedError (error.name ++ (": " : Str) ++ error.message), none, true, some error⟩
  else Py.throw error

-- `decode` turns the native message into an envelope.
def dispatchOneWay (application : BenzeneMessageApplication σ) (settlement : Settlement)
    (decode : Py PyError σ Fields) : Py PyError σ OneWayOutcome := fun world =>
  match decode world with
  | (.error error, world) => settleError settlement [] error world
  | (.ok envelope, world) =>
      let topic := (declaredTopic envelope).text
      match application.handle envelope settlement.ignoreUnmatchedTopics world with
      | (.error error, world) => settleError settlement topic error world
      | (.ok response, world) =>
          let result := decodeResponse response
          (.ok ⟨topic, result, some response, settlement.acknowledges result, none⟩, world)

end Settling

section Outcomes

variable [UnicodeData] {σ : Type} (application : BenzeneMessageApplication σ) (settlement : Settlement)
  (decode : Py PyError σ Fields) (world : σ)

def Acknowledged : Prop :=
  ∃ outcome world', dispatchOneWay application settlement decode world = (.ok outcome, world') ∧
    outcome.acknowledge = true

-- Decoding and the application's run.
def attempt : Py PyError σ Response := do
  application.handle (← decode) settlement.ignoreUnmatchedTopics

-- An error outside `Exception`: a cancellation, or the interpreter's end.
def Interrupted : Prop :=
  ∃ error, (attempt application settlement decode world).1 = .error error ∧ error.isException = false

-- Decoding, the pipeline and the encoding finished, and the result that the
-- pipeline left is a success.
structure Succeeds : Prop where
  finished : ∃ envelope headers parsed context result response world₁ world₂,
    decode world = (.ok envelope, world₁) ∧ declaredHeaders envelope = .ok headers ∧
      declaredBody envelope = some parsed ∧
      application.run ⟨declaredTopic envelope, parsed, lowerKeys headers,
        resolveVersion headers application.versionHeader, none, settlement.ignoreUnmatchedTopics⟩ world₁ =
          (.ok context, world₂) ∧
      context.result = some result ∧ encodeResponse (some result) = .ok response ∧
      result.isSuccessful = true

end Outcomes

section Decision

variable {σ : Type}

theorem settleError_acknowledges (settlement : Settlement) (topic : Str) (error : PyError) (world' : σ) :
    (∃ outcome after, settleError settlement topic error world' = (.ok outcome, after) ∧
      outcome.acknowledge = true) ↔ settlement.atMostOnce = true ∧ error.isException = true := by
  unfold settleError
  by_cases h : (settlement.atMostOnce && error.isException) = true
  · rw [if_pos h]
    rw [Bool.and_eq_true] at h
    exact ⟨fun _ => h, fun _ => ⟨_, _, rfl, rfl⟩⟩
  · rw [if_neg h]
    rw [Bool.and_eq_true] at h
    refine ⟨?_, fun ha => absurd ha h⟩
    rintro ⟨outcome, after, hr, _⟩
    cases hr

variable [UnicodeData] {application : BenzeneMessageApplication σ} {settlement : Settlement}
  {decode : Py PyError σ Fields} {world : σ}

-- The decision is about how the attempt ends.
theorem acknowledged_iff : Acknowledged application settlement decode world ↔
    match (attempt application settlement decode world).1 with
    | .error error => settlement.atMostOnce = true ∧ error.isException = true
    | .ok response => settlement.atMostOnce = true ∨ (decodeResponse response).isSuccessful = true := by
  unfold Acknowledged attempt dispatchOneWay
  rw [Py.bind_apply]
  cases hd : decode world with
  | mk outcome world₁ =>
      cases outcome with
      | error error => exact settleError_acknowledges settlement [] error world₁
      | ok envelope =>
          dsimp only
          cases hr : application.handle envelope settlement.ignoreUnmatchedTopics world₁ with
          | mk outcome world₂ =>
              cases outcome with
              | error error => exact settleError_acknowledges settlement _ error world₂
              | ok response =>
                  dsimp only
                  rw [← Bool.or_eq_true]
                  constructor
                  · rintro ⟨outcome, after, ho, ha⟩
                    cases ho
                    exact ha
                  · intro ha
                    exact ⟨_, _, rfl, ha⟩

theorem decodeResponse_echoVersion (version : Json) (response : Response) :
    decodeResponse (application.echoVersion version response) = decodeResponse response := by
  unfold BenzeneMessageApplication.echoVersion
  split <;> rfl

-- A response that reads back as a success is the pipeline's own successful result.
theorem handle_success_iff (envelope : Fields) (ignoreUnmatchedTopic : Bool) (world₁ : σ) :
    (∃ response, (application.handle envelope ignoreUnmatchedTopic world₁).1 = .ok response ∧
      (decodeResponse response).isSuccessful = true) ↔
    ∃ headers parsed context result response world₂, declaredHeaders envelope = .ok headers ∧
      declaredBody envelope = some parsed ∧
      application.run ⟨declaredTopic envelope, parsed, lowerKeys headers,
        resolveVersion headers application.versionHeader, none, ignoreUnmatchedTopic⟩ world₁ =
          (.ok context, world₂) ∧
      context.result = some result ∧ encodeResponse (some result) = .ok response ∧
      result.isSuccessful = true := by
  cases hh : declaredHeaders envelope with
  | error error =>
      rw [BenzeneMessageApplication.handle_badHeaders _ hh]
      constructor
      · rintro ⟨response, hr, _⟩
        cases hr
      · rintro ⟨headers, _, _, _, _, _, ho, _⟩
        cases ho
  | ok headers =>
      cases hb : declaredBody envelope with
      | none =>
          rw [BenzeneMessageApplication.handle_badBody _ hh hb]
          constructor
          · rintro ⟨response, hr, hs⟩
            have he : encodeResponse (some (Result.badRequest "Request body is not valid JSON")) =
              .ok response := hr
            rw [decodeResponse_isSuccessful he] at hs
            exact absurd hs (by decide)
          · rintro ⟨_, parsed, _, _, _, _, _, ho, _⟩
            cases ho
      | some parsed =>
          rw [BenzeneMessageApplication.handle_parsed _ hh hb]
          cases hrun : application.run ⟨declaredTopic envelope, parsed, lowerKeys headers,
              resolveVersion headers application.versionHeader, none, ignoreUnmatchedTopic⟩ world₁ with
          | mk outcome world₂ =>
              cases outcome with
              | error error =>
                  constructor
                  · rintro ⟨response, hr, _⟩
                    cases hr
                  · rintro ⟨_, _, context, _, _, _, ho, hp, hrun', _⟩
                    cases ho
                    cases hp
                    rw [hrun] at hrun'
                    cases hrun'
              | ok context =>
                  dsimp only
                  constructor
                  · rintro ⟨response, hr, hs⟩
                    cases he : encodeResponse context.result with
                    | error error =>
                        rw [he] at hr
                        cases hr
                    | ok encoded =>
                        rw [he] at hr
                        cases hr
                        rw [decodeResponse_echoVersion, decodeResponse_isSuccessful he] at hs
                        cases hresult : context.result with
                        | none =>
                            rw [hresult] at hs
                            exact absurd hs (by decide)
                        | some result =>
                            rw [hresult] at he hs
                            exact ⟨headers, parsed, context, result, encoded, world₂, rfl, rfl, hrun,
                              hresult, he, hs⟩
                  · rintro ⟨_, _, context', result, encoded, _, ho, hp, hrun', hresult, he, hs⟩
                    cases ho
                    cases hp
                    rw [hrun] at hrun'
                    cases hrun'
                    rw [hresult, he]
                    refine ⟨_, rfl, ?_⟩
                    rw [decodeResponse_echoVersion, decodeResponse_isSuccessful he]
                    exact hs

theorem succeeds_iff : Succeeds application settlement decode world ↔
    ∃ response, (attempt application settlement decode world).1 = .ok response ∧
      (decodeResponse response).isSuccessful = true := by
  unfold attempt
  cases hd : decode world with
  | mk outcome world₁ =>
      cases outcome with
      | error error =>
          rw [Py.bind_error hd]
          constructor
          · rintro ⟨_, _, _, _, _, _, _, _, hd', _⟩
            rw [hd] at hd'
            cases hd'
          · rintro ⟨response, hr, _⟩
            cases hr
      | ok envelope =>
          rw [Py.bind_ok hd, handle_success_iff]
          constructor
          · rintro ⟨_, headers, parsed, context, result, response, _, world₂, hd', h⟩
            rw [hd] at hd'
            cases hd'
            exact ⟨headers, parsed, context, result, response, world₂, h⟩
          · rintro ⟨headers, parsed, context, result, response, world₂, h⟩
            exact ⟨envelope, headers, parsed, context, result, response, world₁, world₂, hd, h⟩

-- A message is acknowledged where its own result is a success, or where the
-- settlement gives up on it and nothing outside `Exception` ended the attempt;
-- the decision reads the truth value that the result carried.
theorem acknowledged_iff_succeeds :
    (∀ (application : BenzeneMessageApplication σ) settlement decode world,
      Acknowledged application settlement decode world ↔
        (settlement.atMostOnce = true ∧ ¬ Interrupted application settlement decode world) ∨
          Succeeds application settlement decode world) ∧
    ∀ result response, encodeResponse (some result) = .ok response →
      (decodeResponse response).isSuccessful = result.isSuccessful := by
  refine ⟨fun application settlement decode world => ?_, fun result response h =>
    decodeResponse_isSuccessful h⟩
  rw [acknowledged_iff, succeeds_iff]
  unfold Interrupted
  cases (attempt application settlement decode world).1 with
  | error error =>
      dsimp only
      constructor
      · rintro ⟨ha, he⟩
        refine .inl ⟨ha, ?_⟩
        rintro ⟨_, ho, hf⟩
        cases ho
        rw [he] at hf
        cases hf
      · rintro (⟨ha, hi⟩ | ⟨_, ho, _⟩)
        · refine ⟨ha, ?_⟩
          by_contra hf
          exact hi ⟨error, rfl, Bool.eq_false_of_not_eq_true hf⟩
        · cases ho
  | ok response =>
      dsimp only
      constructor
      · rintro (ha | hs)
        · refine .inl ⟨ha, ?_⟩
          rintro ⟨_, ho, _⟩
          cases ho
        · exact .inr ⟨response, rfl, hs⟩
      · rintro (⟨ha, _⟩ | ⟨_, ho, hs⟩)
        · exact .inl ha
        · cases ho
          exact .inr hs

end Decision

section Runs

-- A success under a status of the application's own is read back as one.
theorem cacheWarm_acknowledged : letI := UnicodeData.ascii
    let result : Result Value := ⟨"cache-warm", some (.str "report"), [], none, some true⟩
    ∃ response, encodeResponse (some result) = .ok response ∧
      (decodeResponse response).isSuccessful = true := by
  let _ := UnicodeData.ascii
  intro result
  have he : encodeResponse (some result) = .ok ⟨"cache-warm", true, contentType "application/json",
      Json.dumpsWith .spaced (.str "report")⟩ := rfl
  have hs := (@acknowledged_iff_succeeds Unit _).2 _ _ he
  exact ⟨_, he, hs⟩

-- A cancelled run is not acknowledged, whatever the settlement.
theorem cancelled_not_acknowledged : letI := UnicodeData.ascii
    let cancelled : BenzeneMessageApplication Unit :=
      ⟨[fun _ => Py.throw ⟨.baseException "CancelledError", []⟩], "benzene-version"⟩
    let settlement : Settlement := { atMostOnce := true }
    settlement.atMostOnce = true ∧ ¬ Acknowledged cancelled settlement (pure []) () := by
  let _ := UnicodeData.ascii
  refine ⟨rfl, ?_⟩
  rintro ⟨outcome, world', h, _⟩
  cases h

end Runs

end Benzene.Core
