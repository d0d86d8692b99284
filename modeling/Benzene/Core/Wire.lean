import Benzene.Core.Envelope
import Benzene.Data.Reread

namespace Benzene.Results

open Benzene.Data

namespace BenzeneError

-- An error as JSON text brings it back.
def rejoin (error : BenzeneError) : BenzeneError :=
  ⟨error.message.rejoin, error.field.map Str.rejoin, error.code.map Str.rejoin⟩

-- An error whose texts JSON text carries as they are.
def Joined (error : BenzeneError) : Prop :=
  error.message.Joined ∧ (∀ field, error.field = some field → field.Joined) ∧
    ∀ code, error.code = some code → code.Joined

theorem rejoin_of_joined {error : BenzeneError} (h : error.Joined) : error.rejoin = error := by
  obtain ⟨hmessage, hfield, hcode⟩ := h
  have hf : error.field.map Str.rejoin = error.field := by
    cases he : error.field with
    | none => rfl
    | some field => rw [Option.map_some, Str.rejoin_of_joined (hfield field he)]
  have hc : error.code.map Str.rejoin = error.code := by
    cases he : error.code with
    | none => rfl
    | some code => rw [Option.map_some, Str.rejoin_of_joined (hcode code he)]
  rw [rejoin, hf, hc, Str.rejoin_of_joined hmessage]

@[simp] theorem rejoin_rejoin (error : BenzeneError) : error.rejoin.rejoin = error.rejoin := by
  cases error with
  | mk message field code => simp [rejoin, Function.comp_def]

section Payload

theorem keys_toPayload (error : BenzeneError) :
    (Entries.keys ([Json.field "message" (.str error.message)] ++ Json.optionalField "field" error.field ++
      Json.optionalField "code" error.code)).Sublist ["message", "field", "code"] := by
  rw [Json.keys_append, Json.keys_append]
  have hmessage : (Entries.keys [Json.field "message" (.str error.message)]).Sublist ["message"] :=
    List.Sublist.refl _
  exact (hmessage.append (Json.keys_optionalField_sublist "field" error.field)).append
    (Json.keys_optionalField_sublist "code" error.code)

theorem reread_toPayload (error : BenzeneError) : error.toPayload.reread = error.rejoin.toPayload := by
  have hsub := keys_toPayload error
  have hnodup : (["message", "field", "code"] : List Str).Nodup := by decide
  have hjoined : Json.KeysJoined ([Json.field "message" (.str error.message)] ++
      Json.optionalField "field" error.field ++ Json.optionalField "code" error.code) := by
    intro key hk
    have hmem := hsub.subset hk
    simp only [List.mem_cons, List.not_mem_nil, or_false] at hmem
    rcases hmem with rfl | rfl | rfl <;> exact Str.joined_ofString _
  unfold toPayload
  rw [Json.reread_obj hjoined (hsub.nodup hnodup), Json.rereadFields_append, Json.rereadFields_append,
    Json.rereadFields_optionalField (Str.joined_ofString _),
    Json.rereadFields_optionalField (Str.joined_ofString _)]
  have hm : ("message" : Str).rejoin = "message" := Str.rejoin_of_joined (Str.joined_ofString _)
  rw [Json.field, Json.rereadFields, hm]
  rfl

theorem reread_errors (errors : List BenzeneError) :
    Json.reread (.arr (errors.map toPayload)) = .arr ((errors.map rejoin).map toPayload) := by
  rw [Json.reread, Json.rereadItems_eq_map, List.map_map, List.map_map]
  have hfun : Json.reread ∘ toPayload = toPayload ∘ rejoin := funext reread_toPayload
  rw [hfun]

variable [UnicodeData]

-- What is written of an error is what the error is read from.
theorem coerce_toPayload (error : BenzeneError) :
    ∃ fields, error.toPayload = .obj fields ∧ coerce (.mapping fields) = error := by
  refine ⟨_, rfl, ?_⟩
  cases error with
  | mk message field code =>
      cases field <;> cases code <;> rfl

end Payload

end BenzeneError

section Document

-- The errors that say something, or a detail in the place of errors.
def tells (errors : List BenzeneError) (detail : Option Str) : List BenzeneError :=
  (if errors = [] then (detail.map fun text => (⟨text, none, none⟩ : BenzeneError)).toList
    else errors).filter fun error => error.message ≠ []

theorem tells_rejoin (errors : List BenzeneError) (detail : Option Str) :
    tells (errors.map BenzeneError.rejoin) (detail.map Str.rejoin) =
      (tells errors detail).map BenzeneError.rejoin := by
  have hkept : (fun error : BenzeneError => decide (error.message ≠ [])) ∘ BenzeneError.rejoin =
      fun error => decide (error.message ≠ []) := by
    funext error
    simp [BenzeneError.rejoin]
  unfold tells
  by_cases he : errors = []
  · rw [if_pos he, if_pos (by rw [he]; rfl)]
    cases detail with
    | none => rfl
    | some text => by_cases ht : text = [] <;> simp [ht, BenzeneError.rejoin]
  · rw [if_neg he, if_neg (by simpa using he), List.filter_map, hkept]

-- A problem document that tells a status, errors, and a detail.
structure Describes (document : Fields) (status : Str) (errors : List BenzeneError)
    (detail : Option Str) : Prop where
  keys : Json.KeysJoined document
  nodup : (Entries.keys document).Nodup
  status : Json.getField document "benzeneStatus" = .str status
  errors : Json.getField document "errors" =
    if errors = [] then .null else .arr (errors.map BenzeneError.toPayload)
  detail : Json.getField document "detail" = (detail.map Json.str).getD .null

namespace Describes

variable {document : Fields} {status : Str} {errors : List BenzeneError} {detail : Option Str}

theorem reread (h : Describes document status errors detail) :
    Describes (Json.rereadFields document) status.rejoin (errors.map BenzeneError.rejoin)
      (detail.map Str.rejoin) where
  keys := by
    unfold Json.KeysJoined
    rw [Json.keys_rereadFields h.keys]
    exact h.keys
  nodup := by
    rw [Json.keys_rereadFields h.keys]
    exact h.nodup
  status := by
    rw [Json.getField_rereadFields h.keys, h.status]
    rfl
  errors := by
    rw [Json.getField_rereadFields h.keys, h.errors]
    by_cases he : errors = []
    · rw [if_pos he, if_pos (by rw [he]; rfl)]
      rfl
    · rw [if_neg he, if_neg (by simpa using he)]
      exact BenzeneError.reread_errors errors
  detail := by
    rw [Json.getField_rereadFields h.keys, h.detail]
    cases detail <;> rfl

-- What is written of the document is read as one that tells the same.
theorem loads (h : Describes document status errors detail) :
    Json.loads (Json.dumpsWith .spaced (.obj document)) = some (.obj (Json.rereadFields document)) := by
  rw [Json.loads_dumpsWith, Json.reread_obj h.keys h.nodup]

theorem problemStatus (h : Describes document status errors detail) (hne : status ≠ [])
    (hf : isSuccessful status = false) : Results.problemStatus document = some status := by
  unfold Results.problemStatus
  rw [h.status]
  simp [hne, hf]

variable [UnicodeData]

theorem problemErrors (h : Describes document status errors detail) :
    Results.problemErrors document = tells errors detail := by
  unfold Results.problemErrors tells
  by_cases he : errors = []
  · rw [h.errors, if_pos he, if_pos he, h.detail]
    cases detail with
    | none => rfl
    | some text =>
        by_cases ht : text = []
        · subst ht
          rfl
        · simp [Json.orElse, Json.truthy, Json.text, ht]
  · rw [h.errors, if_neg he, if_neg he]
    refine congrArg (List.filter _) ?_
    rw [List.map_map]
    refine (List.map_congr_left ?_).trans (List.map_id errors)
    intro error _
    obtain ⟨fields, hfields, hcoerce⟩ := BenzeneError.coerce_toPayload error
    rw [Function.comp_apply, hfields]
    exact hcoerce

end Describes

end Document

end Benzene.Results

namespace Benzene.Results.Result

open Benzene.Data

section Failing

variable {α : Type}

-- The errors that a failed result tells: those that say something, or the
-- detail of the application's own document in their place.
def told (result : Result α) : List BenzeneError :=
  tells result.errors (result.problemDocument.bind ProblemDetails.detail)

-- A failed result's status is no status of success, and its document tells the
-- result's own status and errors.
structure Consistent (result : Result α) : Prop where
  status : Results.isSuccessful result.status = false
  document : ∀ document, result.problemDocument = some document →
    document.benzeneStatus = result.status ∧ document.errors = result.errors

variable [UnicodeData]

theorem set_failed {status : Str} {payload : Option α} {successful : Option Bool} {result : Result α}
    (h : Result.set status payload successful = .ok result) (hf : result.isSuccessful = false) :
    Results.isSuccessful result.status = false ∧ result.problemDocument = none := by
  unfold Result.set at h
  cases successful with
  | none =>
      cases h
      exact ⟨hf, rfl⟩
  | some stated =>
      by_cases hc : status ∈ knownStatuses ∧ stated ≠ Results.isSuccessful status
      · simp only [hc, and_self, ne_eq, not_false_eq_true, if_true] at h
        cases h
      · simp only [hc, if_false] at h
        cases h
        have hstated : stated = false := hf
        refine ⟨?_, rfl⟩
        by_contra hs
        rw [Bool.not_eq_false] at hs
        have hknown : status ∈ knownStatuses := by
          have hmem : status ∈ successStatuses := of_decide_eq_true hs
          exact List.mem_append_left _ hmem
        refine hc ⟨hknown, ?_⟩
        show stated ≠ Results.isSuccessful status
        rw [hstated, hs]
        exact Bool.false_ne_true

theorem problem_eq_ok {document : ProblemDetails} {result : Result α}
    (h : Result.problem document = .ok result) : document.benzeneStatus ≠ [] ∧
      Results.isSuccessful document.benzeneStatus = false ∧
      result = ⟨document.benzeneStatus, none, document.errors, some document, some false⟩ := by
  unfold Result.problem at h
  by_cases he : document.benzeneStatus = []
  · rw [if_pos he] at h
    cases h
  · rw [if_neg he] at h
    by_cases hs : Results.isSuccessful document.benzeneStatus = true
    · rw [if_pos hs] at h
      cases h
    · rw [if_neg hs] at h
      cases h
      exact ⟨he, Bool.eq_false_of_not_eq_true hs, rfl⟩

-- No factory lets a known status go against its class.
theorem Built.consistent {result : Result α} (h : result.Built) (hf : result.isSuccessful = false) :
    result.Consistent := by
  cases h with
  | ok payload | created payload | accepted payload | updated payload | deleted payload
  | ignored payload => exact absurd hf (by simp [Result.isSuccessful, Result.ok, Result.created,
      Result.accepted, Result.updated, Result.deleted, Result.ignored, Results.isSuccessful, successStatuses])
  | set hset =>
      obtain ⟨hstatus, hnone⟩ := set_failed hset hf
      refine ⟨hstatus, fun document hd => ?_⟩
      rw [hnone] at hd
      cases hd
  | failure status errors => exact ⟨hf, fun document hd => by cases hd⟩
  | problem hproblem =>
      obtain ⟨_, hstatus, rfl⟩ := problem_eq_ok hproblem
      refine ⟨hstatus, fun other hd => ?_⟩
      cases hd
      exact ⟨rfl, rfl⟩

end Failing

end Benzene.Results.Result

namespace Benzene.Core

open Benzene.Data Benzene.Results

section Payload

variable {α : Type}

theorem keys_errors (errors : List BenzeneError) :
    (Entries.keys (if errors = [] then []
      else [Json.field "errors" (.arr (errors.map BenzeneError.toPayload))])).Sublist ["errors"] := by
  by_cases h : errors = []
  · rw [if_pos h]
    exact List.nil_sublist _
  · rw [if_neg h]
    exact List.Sublist.refl _

theorem keys_errorPayload (result : Result α) : (Entries.keys (errorPayload result)).Sublist
    ["type", "title", "detail", "instance", "benzeneStatus", "errors"] := by
  unfold errorPayload
  cases result.problemDocument with
  | none =>
      dsimp only
      rw [Json.keys_append, Json.keys_append, Json.keys_append]
      have hmembers : (["detail", "benzeneStatus"] : List Str).Sublist ["detail", "instance", "benzeneStatus"] := by
        decide
      exact (((Json.keys_optionalField_sublist "type" _).append
        (Json.keys_optionalField_sublist "title" _)).append hmembers).append (keys_errors result.errors)
  | some document =>
      dsimp only [ProblemDetails.toPayload]
      rw [Json.keys_append, Json.keys_append, Json.keys_append, Json.keys_append, Json.keys_append]
      have hstatus : (["benzeneStatus"] : List Str).Sublist ["benzeneStatus"] := List.Sublist.refl _
      exact (((((Json.keys_optionalField_sublist "type" _).append
        (Json.keys_optionalField_sublist "title" _)).append
        (Json.keys_optionalField_sublist "detail" _)).append
        (Json.keys_optionalField_sublist "instance" _)).append hstatus).append (keys_errors document.errors)

-- The detail that a failed result's document states.
def statedDetail (result : Result α) : Option Str :=
  match result.problemDocument with
  | some document => document.detail
  | none => some (Str.join ", " result.messages)

-- The messages joined stand in for no errors.
theorem tells_statedDetail (result : Result α) :
    tells result.errors (statedDetail result) = result.told := by
  unfold Result.told statedDetail
  cases hd : result.problemDocument with
  | some document => rfl
  | none =>
      unfold tells
      by_cases he : result.errors = []
      · simp [he, Result.messages, Str.join]
      · rw [if_neg he, if_neg he]

theorem describes_errorPayload {result : Result α} (h : result.Consistent) :
    Describes (errorPayload result) result.status result.errors (statedDetail result) := by
  have hsub := keys_errorPayload result
  have hnodup : (["type", "title", "detail", "instance", "benzeneStatus", "errors"] : List Str).Nodup := by
    decide
  refine ⟨?_, hsub.nodup hnodup, ?_, ?_, ?_⟩
  · intro key hk
    have hmem := hsub.subset hk
    simp only [List.mem_cons, List.not_mem_nil, or_false] at hmem
    rcases hmem with rfl | rfl | rfl | rfl | rfl | rfl <;> exact Str.joined_ofString _
  · unfold errorPayload
    cases hd : result.problemDocument with
    | none => simp [Json.getField, Json.field, Entries.get?_append, Json.get?_optionalField]
    | some document =>
        have hstatus := (h.document document hd).1
        simp [ProblemDetails.toPayload, Json.getField, Json.field, Entries.get?_append,
          Json.get?_optionalField, hstatus]
  · unfold errorPayload
    cases hd : result.problemDocument with
    | none =>
        by_cases he : result.errors = [] <;>
          simp [Json.getField, Json.field, Entries.get?_append, Json.get?_optionalField, he]
    | some document =>
        have herrors := (h.document document hd).2
        by_cases he : result.errors = [] <;>
          simp [ProblemDetails.toPayload, Json.getField, Json.field, Entries.get?_append,
            Json.get?_optionalField, herrors, he]
  · unfold errorPayload statedDetail
    cases hd : result.problemDocument with
    | none => simp [Json.getField, Json.field, Entries.get?_append, Json.get?_optionalField]
    | some document =>
        by_cases he : document.errors = [] <;> cases hdetail : document.detail <;>
          simp [ProblemDetails.toPayload, Json.getField, Json.field, Entries.get?_append,
            Json.get?_optionalField, he, hdetail]

end Payload

section RoundTrip

-- A result with a JSON payload, as a handler returns it. A payload of `None` is
-- no payload.
def written (result : Result Json) : Result Value :=
  ⟨result.status, result.payload.map Value.ofJson, result.errors, result.problemDocument, result.successful⟩

def succeeded (result : Result Json) : Response :=
  ⟨result.status, true, contentType "application/json",
    (result.payload.map (Json.dumpsWith .spaced)).getD []⟩

def failed (result : Result Json) : Response :=
  ⟨result.status, false, contentType "application/problem+json",
    Json.dumpsWith .spaced (.obj (errorPayload result))⟩

theorem dumps_ne_nil (j : Json) : Json.dumpsWith .spaced j ≠ [] :=
  List.ne_nil_of_length_pos (Json.dumps_length_pos .spaced j)

variable [UnicodeData]

theorem encodeResponse_succeeded {result : Result Json} (h : result.isSuccessful = true) :
    encodeResponse (some (written result)) = .ok (succeeded result) := by
  have hs : (written result).isSuccessful = true := h
  simp only [encodeResponse, Option.getD_some]
  rw [if_pos hs]
  unfold written succeeded
  cases result.payload with
  | none => rfl
  | some payload =>
      simp only [Option.map_some, dumpPayload_ofJson]
      rfl

theorem encodeResponse_failed {result : Result Json} (h : result.isSuccessful = false) :
    encodeResponse (some (written result)) = .ok (failed result) := by
  have hs : (written result).isSuccessful = false := h
  simp only [encodeResponse, Option.getD_some]
  rw [if_neg (by rw [hs]; exact Bool.false_ne_true)]
  rfl

theorem decodeResponse_succeeded {result : Result Json} (hne : result.status ≠ []) :
    decodeResponse (succeeded result) =
      ⟨result.status, result.payload.map Json.reread, [], none, stated result.status true⟩ := by
  unfold decodeResponse succeeded
  cases hp : result.payload with
  | none => simp [hne]
  | some payload =>
      have hbody := dumps_ne_nil payload
      have hloads := Json.loads_dumpsWith .spaced payload
      simp only [Option.map_some, Option.getD_some, hbody, if_false, hne, hloads]
      cases payload.reread <;> rfl

theorem decodeResponse_failed {result : Result Json} (h : result.Consistent) (hne : result.status ≠ []) :
    decodeResponse (failed result) =
      ⟨result.status, none, result.told.map BenzeneError.rejoin, none, stated result.status false⟩ := by
  have hdescribes := describes_errorPayload h
  have hread := hdescribes.reread
  have herrors : problemErrors (Json.rereadFields (errorPayload result)) =
      result.told.map BenzeneError.rejoin := by
    rw [hread.problemErrors, tells_rejoin, tells_statedDetail]
  have hlooks : looksLikeProblem (Json.rereadFields (errorPayload result)) = true := by
    have hstatus := hread.status
    unfold Json.getField at hstatus
    unfold looksLikeProblem
    cases hget : Entries.get? ("benzeneStatus" : Str) (Json.rereadFields (errorPayload result)) with
    | none =>
        rw [hget] at hstatus
        cases hstatus
    | some value => rfl
  unfold decodeResponse failed
  simp only [dumps_ne_nil, if_false, hne, hdescribes.loads, hlooks, herrors, Bool.not_false, Bool.true_and,
    if_true]

-- The peer reads the status, the class, the payload of a success and the errors
-- of a failure that say something, all texts as JSON text carries them.
theorem envelope_roundTrip {result : Result Json} (h : result.Built) (hne : result.status ≠ []) :
    ∃ response, encodeResponse (some (written result)) = .ok response ∧
      (decodeResponse response).status = result.status ∧
      (decodeResponse response).isSuccessful = result.isSuccessful ∧
      (result.isSuccessful = true →
        (decodeResponse response).payload = result.payload.map Json.reread ∧
        ((∀ payload, result.payload = some payload → payload.WellFormed) →
          (decodeResponse response).payload = result.payload)) ∧
      (result.isSuccessful = false →
        (decodeResponse response).errors = result.told.map BenzeneError.rejoin ∧
        ((∀ error ∈ result.told, error.Joined) → (decodeResponse response).errors = result.told)) := by
  cases hs : result.isSuccessful with
  | true =>
      refine ⟨succeeded result, encodeResponse_succeeded hs, ?_⟩
      rw [decodeResponse_succeeded hne]
      refine ⟨rfl, isSuccessful_stated _ _ _ _, fun _ => ⟨rfl, ?_⟩, fun hf => absurd hf (by simp)⟩
      intro hwell
      cases hp : result.payload with
      | none => rfl
      | some payload => exact congrArg some (Json.reread_of_wellFormed (hwell payload hp))
  | false =>
      refine ⟨failed result, encodeResponse_failed hs, ?_⟩
      rw [decodeResponse_failed (h.consistent hs) hne]
      refine ⟨rfl, isSuccessful_stated _ _ _ _, fun ht => absurd ht (by simp), fun _ => ⟨rfl, ?_⟩⟩
      intro hjoined
      exact (List.map_congr_left fun error he =>
        BenzeneError.rejoin_of_joined (hjoined error he)).trans (List.map_id _)

end RoundTrip

section Runs

-- A validation error of one field, and an application's own success.
theorem envelope_roundTrip_orders : letI := UnicodeData.ascii
    (∃ response, encodeResponse (some (written
        (Result.failure Status.validationError [⟨"sku is required", some "/sku", some "missing"⟩]))) =
          .ok response ∧
      (decodeResponse response).errors = [⟨"sku is required", some "/sku", some "missing"⟩]) ∧
    ∃ response, encodeResponse (some (written
        ⟨"cache-warm", some (.obj [Json.field "entries" (.int 12)]), [], none, some true⟩)) =
          .ok response ∧
      (decodeResponse response).isSuccessful = true ∧
      (decodeResponse response).payload = some (.obj [Json.field "entries" (.int 12)]) := by
  let _ := UnicodeData.ascii
  constructor
  · have hbuilt : (Result.failure (α := Json) Status.validationError
        [⟨"sku is required", some "/sku", some "missing"⟩]).Built :=
      Result.Built.failure _ [.error ⟨"sku is required", some "/sku", some "missing"⟩]
    obtain ⟨response, hr, _, _, _, hfailed⟩ := envelope_roundTrip hbuilt (by decide)
    refine ⟨response, hr, (hfailed (by decide)).1.trans (by decide)⟩
  · have hset : Result.set "cache-warm" (some (Json.obj [Json.field "entries" (.int 12)])) (some true) =
        .ok ⟨"cache-warm", some (Json.obj [Json.field "entries" (.int 12)]), [], none, some true⟩ := rfl
    obtain ⟨response, hr, _, hsuccessful, hpayload, _⟩ :=
      envelope_roundTrip (Result.Built.set hset) (by decide)
    exact ⟨response, hr, hsuccessful, (hpayload (by decide)).1.trans (by decide)⟩

-- An error without a message is dropped with its field and its code, and two
-- halves of a surrogate pair come back as one code point.
theorem not_envelope_roundTrip : letI := UnicodeData.ascii
    (∃ result : Result Json, result.Built ∧ result.status ≠ [] ∧ result.isSuccessful = false ∧
      ∃ response, encodeResponse (some (written result)) = .ok response ∧
        result.errors = [⟨[], some "/sku", some "required"⟩] ∧ (decodeResponse response).errors = []) ∧
    ∃ result : Result Json, result.Built ∧ result.status ≠ [] ∧ result.isSuccessful = true ∧
      ∃ response, encodeResponse (some (written result)) = .ok response ∧
        result.payload = some (.str [0xD83D, 0xDE00]) ∧
          (decodeResponse response).payload = some (.str [0x1F600]) := by
  let _ := UnicodeData.ascii
  constructor
  · refine ⟨Result.failure Status.validationError [⟨[], some "/sku", some "required"⟩],
      Result.Built.failure _ [.mapping [Json.field "field" (.str "/sku"), Json.field "code" (.str "required")]],
      by decide, by decide, _, encodeResponse_failed (by decide), rfl, ?_⟩
    decide +kernel
  · refine ⟨Result.ok (some (.str [0xD83D, 0xDE00])), Result.Built.ok _, by decide, by decide, _,
      encodeResponse_succeeded (by decide), rfl, ?_⟩
    decide +kernel

end Runs

end Benzene.Core
