import Benzene.Core.Wire
import Benzene.Http.Invoke

namespace Benzene.Http

open Benzene.Data Benzene.Results Benzene.Core

section Status

def httpToBenzene : List (Int × Str) :=
  [(200, Status.ok), (201, Status.created), (202, Status.accepted), (204, Status.deleted),
    (400, Status.badRequest), (401, Status.unauthorized), (403, Status.forbidden), (404, Status.notFound),
    (408, Status.timeout), (409, Status.conflict), (422, Status.validationError),
    (429, Status.tooManyRequests), (501, Status.notImplemented), (502, Status.serviceUnavailable),
    (503, Status.serviceUnavailable), (504, Status.timeout)]

-- A code without a row is an unexpected error.
def fromHttp (httpCode : Int) : Str := (Entries.get? httpCode httpToBenzene).getD Status.unexpectedError

-- A failure is sent with a code that reads back as one, row or no row.
theorem fromHttp_toHttp_failed {status : Str} (h : isSuccessful status = false) :
    isSuccessful (fromHttp (toHttp status false)) = false := by
  unfold toHttp
  cases hrow : Entries.get? status benzeneToHttp with
  | none => rfl
  | some code =>
      have hmem := Entries.mem_of_get? hrow
      have hrows : ∀ row ∈ benzeneToHttp, isSuccessful row.1 = false →
          isSuccessful (fromHttp row.2) = false := by decide
      exact hrows (status, code) hmem h

end Status

section Rendering

variable [UnicodeData]

-- The HTTP response of an envelope; a failure's document gets the code as its
-- `status`. Headers are texts.
def toHttpResponse (envelope : Response) : HttpResponse :=
  let httpStatus := toHttp envelope.statusCode envelope.isSuccessful
  let headers := envelope.headers.map fun header => (header.1, header.2.text)
  let untouched : HttpResponse := ⟨httpStatus, headers, envelope.body⟩
  if envelope.isSuccessful ∨ envelope.body = [] then untouched
  else match Json.loads envelope.body with
    | some (.obj problem) =>
        ⟨httpStatus, Entries.set "content-type" "application/problem+json" headers,
          Json.dumpsWith .spaced (.obj (Entries.set "status" (.int httpStatus) problem))⟩
    | _ => untouched

end Rendering

section Reply

structure HttpReply where
  statusCode : Int
  body : Str

def HttpResponse.reply (response : HttpResponse) : HttpReply := ⟨response.statusCode, response.body⟩

-- No body is `None`, and a body that is no JSON is text.
def parse (body : Str) : Json :=
  if body = [] then .null else (Json.loads body).getD (.str body)

variable [UnicodeData]

def replyToResult (reply : HttpReply) : Result Json :=
  let status := fromHttp reply.statusCode
  let parsed := parse reply.body
  if isSuccessful status then ⟨status, if parsed = .null then none else some parsed, [], none, none⟩
  else match parsed with
    | .obj document => Result.failure ((problemStatus document).getD status) (problemErrors document)
    | _ => Result.failure status []

end Reply

section Hop

-- The code joins the members of the document, and changes none that a client reads.
theorem describes_status {document : Fields} {status : Str} {errors : List BenzeneError}
    {detail : Option Str} (h : Describes document status errors detail) (value : Json) :
    Describes (Entries.set "status" value document) status errors detail := by
  have hget : ∀ key : Str, key ≠ "status" →
      Json.getField (Entries.set "status" value document) key = Json.getField document key := by
    intro key hkey
    unfold Json.getField
    rw [Entries.get?_set, if_neg (Ne.symm hkey)]
  refine ⟨?_, Entries.nodup_keys_set h.nodup, ?_, ?_, ?_⟩
  · intro key hk
    cases Entries.mem_keys_set.mp hk with
    | inl heq =>
        subst heq
        exact Str.joined_ofString "status"
    | inr hmem => exact h.keys key hmem
  · rw [hget _ (by decide)]
    exact h.status
  · rw [hget _ (by decide)]
    exact h.errors
  · rw [hget _ (by decide)]
    exact h.detail

-- No status of the vocabulary comes out of joining another text.
theorem isSuccessful_rejoin {status : Str} (h : isSuccessful status = false) :
    isSuccessful status.rejoin = false := by
  by_contra hs
  rw [Bool.not_eq_false] at hs
  have hmem : status.rejoin ∈ successStatuses := of_decide_eq_true hs
  have hascii : ∀ known ∈ successStatuses, known.all CodePoint.isAscii = true := by decide
  have hbasic : ∀ c ∈ status.rejoin, c.val < 0x10000 := by
    intro c hc
    have hsmall : c.val < 0x80 := of_decide_eq_true (List.all_eq_true.mp (hascii _ hmem) c hc)
    omega
  rw [Str.eq_of_rejoin_basic hbasic] at hs
  rw [h] at hs
  exact Bool.false_ne_true hs

variable [UnicodeData]

theorem toHttpResponse_failed {result : Result Json} (h : result.Consistent) :
    (toHttpResponse (failed result)).reply =
      ⟨toHttp result.status false, Json.dumpsWith .spaced (.obj (Entries.set "status"
        (.int (toHttp result.status false)) (Json.rereadFields (errorPayload result))))⟩ := by
  have hloads := (describes_errorPayload h).loads
  unfold toHttpResponse failed
  simp only [dumps_ne_nil, Bool.false_eq_true, or_self, if_false, hloads]
  rfl

theorem replyToResult_document {httpCode : Int} {document : Fields} {status : Str}
    {errors : List BenzeneError} {detail : Option Str} (hcode : isSuccessful (fromHttp httpCode) = false)
    (h : Describes document status errors detail) (hne : status ≠ [])
    (hf : isSuccessful status = false) :
    replyToResult ⟨httpCode, Json.dumpsWith .spaced (.obj document)⟩ =
      Result.failure status.rejoin ((tells errors detail).map BenzeneError.rejoin) := by
  have hread := h.reread
  have hparse : parse (Json.dumpsWith .spaced (.obj document)) = .obj (Json.rereadFields document) := by
    unfold parse
    rw [if_neg (dumps_ne_nil _), h.loads]
    rfl
  have hstatus : problemStatus (Json.rereadFields document) = some status.rejoin :=
    hread.problemStatus (by simpa using hne) (isSuccessful_rejoin hf)
  have herrors : problemErrors (Json.rereadFields document) =
      (tells errors detail).map BenzeneError.rejoin := by
    rw [hread.problemErrors, tells_rejoin]
  unfold replyToResult
  simp only [hcode, Bool.false_eq_true, if_false, hparse, hstatus, herrors, Option.getD_some]

-- The HTTP hop and the envelope rebuild one result. Over HTTP the status too is
-- read from JSON text.
theorem httpHop_failed {result : Result Json} (h : result.Built) (hne : result.status ≠ [])
    (hf : result.isSuccessful = false) :
    ∃ response, encodeResponse (some (written result)) = .ok response ∧
      (decodeResponse response).isSuccessful = false ∧
      (replyToResult (toHttpResponse response).reply).isSuccessful = false ∧
      replyToResult (toHttpResponse response).reply =
        { decodeResponse response with status := (decodeResponse response).status.rejoin } ∧
      (result.status.Joined →
        replyToResult (toHttpResponse response).reply = decodeResponse response) := by
  have hc := h.consistent hf
  have hcode := fromHttp_toHttp_failed hc.status
  have hread := (describes_errorPayload hc).reread
  have hstated : stated result.status false = none := by
    unfold stated
    rw [hc.status, if_pos rfl]
  have hdirect : decodeResponse (failed result) =
      Result.failure result.status (result.told.map BenzeneError.rejoin) := by
    rw [decodeResponse_failed hc hne, hstated]
    rfl
  have htold : (tells (result.errors.map BenzeneError.rejoin) ((statedDetail result).map Str.rejoin)).map
      BenzeneError.rejoin = result.told.map BenzeneError.rejoin := by
    rw [tells_rejoin, tells_statedDetail, List.map_map]
    exact List.map_congr_left fun error _ => BenzeneError.rejoin_rejoin error
  have hhop : replyToResult (toHttpResponse (failed result)).reply =
      Result.failure result.status.rejoin (result.told.map BenzeneError.rejoin) := by
    rw [toHttpResponse_failed hc, replyToResult_document hcode (describes_status hread _)
      (by simpa using hne) (isSuccessful_rejoin hc.status), htold, Str.rejoin_rejoin]
  refine ⟨failed result, encodeResponse_failed hf, ?_, ?_, ?_, ?_⟩
  · rw [hdirect]
    exact hc.status
  · rw [hhop]
    exact isSuccessful_rejoin hc.status
  · rw [hhop, hdirect]
    rfl
  · intro hjoined
    rw [hhop, hdirect, Str.rejoin_of_joined hjoined]

end Hop

section Runs

-- An application's own status, which no row of the tables carries.
theorem httpHop_failed_declined : letI := UnicodeData.ascii
    ∃ response, encodeResponse (some (written
        (Result.failure "card-declined" [⟨"no funds", none, some "funds"⟩]))) = .ok response ∧
      (replyToResult (toHttpResponse response).reply).isSuccessful = false ∧
      replyToResult (toHttpResponse response).reply = decodeResponse response := by
  let _ := UnicodeData.ascii
  have hbuilt : (Result.failure (α := Json) "card-declined" [⟨"no funds", none, some "funds"⟩]).Built :=
    Result.Built.failure _ [.error ⟨"no funds", none, some "funds"⟩]
  obtain ⟨response, hr, _, hfailed, _, hsame⟩ := httpHop_failed hbuilt (by decide) (by decide)
  exact ⟨response, hr, hfailed, hsame (Str.joined_ofString _)⟩

-- A status with the two halves of a surrogate pair: the envelope carries it as it
-- is, the HTTP response as one code point.
theorem not_httpHop_failed : letI := UnicodeData.ascii
    ∃ result : Result Json, result.Built ∧ result.status ≠ [] ∧ result.isSuccessful = false ∧
      ∃ response, encodeResponse (some (written result)) = .ok response ∧
        (decodeResponse response).status = [0xD83D, 0xDE00] ∧
        (replyToResult (toHttpResponse response).reply).status = [0x1F600] := by
  let _ := UnicodeData.ascii
  refine ⟨Result.failure [0xD83D, 0xDE00] [], Result.Built.failure _ [], by decide, by decide, _,
    encodeResponse_failed (by decide), ?_, ?_⟩
  · decide +kernel
  · decide +kernel

end Runs

end Benzene.Http
