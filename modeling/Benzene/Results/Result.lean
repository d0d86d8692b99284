import Benzene.Data.Json
import Benzene.Results.Status

namespace Benzene.Results

open Benzene.Data

-- One structured error of a failed result.
structure BenzeneError where
  message : Str
  field : Option Str := none
  code : Option Str := none
deriving DecidableEq

-- What a failure factory accepts.
inductive ErrorLike
  | message (text : Str)
  | error (error : BenzeneError)
  | mapping (fields : Fields)

structure ProblemDetails where
  benzeneStatus : Str
  type : Option Str := none
  title : Option Str := none
  detail : Option Str := none
  instanceUri : Option Str := none
  errors : List BenzeneError := []
deriving DecidableEq

-- `successful` is an explicit classification; `none` derives it from the status.
structure Result (α : Type) where
  status : Str
  payload : Option α := none
  errors : List BenzeneError := []
  problemDocument : Option ProblemDetails := none
  successful : Option Bool := none

namespace BenzeneError

def toPayload (error : BenzeneError) : Json :=
  .obj ([Json.field "message" (.str error.message)] ++ Json.optionalField "field" error.field ++
    Json.optionalField "code" error.code)

-- A member of the mapping a wire decoder hands back; an explicit null is absent.
def member [UnicodeData] (fields : Fields) (key : Str) : Option Str :=
  match Json.getField fields key with
  | .null => none
  | value => some value.text

def coerce [UnicodeData] : ErrorLike → BenzeneError
  | .error error => error
  | .message text => ⟨text, none, none⟩
  | .mapping fields =>
      ⟨(member fields "message").getD [], member fields "field", member fields "code"⟩

end BenzeneError

namespace ProblemDetails

def toPayload (document : ProblemDetails) : Fields :=
  Json.optionalField "type" document.type ++ Json.optionalField "title" document.title ++
    Json.optionalField "detail" document.detail ++
    Json.optionalField "instance" document.instanceUri ++
    [Json.field "benzeneStatus" (.str document.benzeneStatus)] ++
    if document.errors = [] then []
    else [Json.field "errors" (.arr (document.errors.map BenzeneError.toPayload))]

end ProblemDetails

-- The errors of a peer's problem document: `errors` is authoritative where it
-- is a list, `detail` stands in as one opaque message.
def problemErrors [UnicodeData] (document : Fields) : List BenzeneError :=
  match Json.getField document "errors" with
  | .arr rawErrors =>
      (rawErrors.map fun item => BenzeneError.coerce (match item with
        | .obj fields => ErrorLike.mapping fields
        | item => ErrorLike.message item.text)).filter fun error => error.message ≠ []
  | _ =>
      let detail := Json.orElse (Json.getField document "detail") (.str [])
      if detail.truthy then [⟨detail.text, none, none⟩] else []

-- The failure status a peer's problem document states, if it states one.
def problemStatus (document : Fields) : Option Str :=
  match Json.getField document "benzeneStatus" with
  | .str status => if status = [] ∨ isSuccessful status then none else some status
  | _ => none

namespace Result

variable {α : Type}

def isSuccessful (result : Result α) : Bool :=
  result.successful.getD (Results.isSuccessful result.status)

def messages (result : Result α) : List Str := result.errors.map BenzeneError.message

def ok (payload : Option α) : Result α := ⟨Status.ok, payload, [], none, none⟩

def created (payload : Option α) : Result α := ⟨Status.created, payload, [], none, none⟩

def accepted (payload : Option α) : Result α := ⟨Status.accepted, payload, [], none, none⟩

def updated (payload : Option α) : Result α := ⟨Status.updated, payload, [], none, none⟩

def deleted (payload : Option α) : Result α := ⟨Status.deleted, payload, [], none, none⟩

def ignored (payload : Option α) : Result α := ⟨Status.ignored, payload, [], none, none⟩

def failure (status : Str) (errors : List BenzeneError) : Result α :=
  ⟨status, none, errors, none, none⟩

-- A failure with one plain message.
def failed (status message : Str) : Result α := failure status [⟨message, none, none⟩]

def badRequest (message : Str) : Result α := failed Status.badRequest message

def validationError (message : Str) : Result α := failed Status.validationError message

def notFound (message : Str) : Result α := failed Status.notFound message

def tooManyRequests (message : Str) : Result α := failed Status.tooManyRequests message

def serviceUnavailable (message : Str) : Result α := failed Status.serviceUnavailable message

def unexpectedError (message : Str) : Result α := failed Status.unexpectedError message

section Checked

variable [UnicodeData]

def boolText (b : Bool) : Str := if b then "True" else "False"

def contradiction (status : Str) (successful : Bool) : Str :=
  Str.repr status ++ (" is " : Str) ++
    (if Results.isSuccessful status then ("a success" : Str) else "a failure") ++
    (" status, so its isSuccessful is " : Str) ++ boolText (Results.isSuccessful status) ++
    (" - Result.set(..., successful=" : Str) ++ boolText successful ++
    ((") would put a contradiction on the wire (wire-contracts.md 1.2). Use an application-defined " ++
      "status for an outcome the vocabulary does not describe, or drop successful= and keep the " ++
      "status's class." : String) : Str)

-- An application's own status, and whether it counts as a success. A known
-- status keeps its class.
def set (status : Str) (payload : Option α) (successful : Option Bool) : Except PyError (Result α) :=
  match successful with
  | none => .ok ⟨status, payload, [], none, none⟩
  | some stated =>
      if status ∈ knownStatuses ∧ stated ≠ Results.isSuccessful status then
        .error ⟨.valueError, contradiction status stated⟩
      else .ok ⟨status, payload, [], none, some stated⟩

-- A failure that carries a problem document of the application's own.
def problem (document : ProblemDetails) : Except PyError (Result α) :=
  if document.benzeneStatus = [] then
    .error ⟨.valueError, (("ProblemDetails.benzene_status is required - a problem document with no " ++
      "status cannot be classified by anything downstream" : String) : Str)⟩
  else if Results.isSuccessful document.benzeneStatus then
    .error ⟨.valueError, ("ProblemDetails.benzene_status " : Str) ++ Str.repr document.benzeneStatus ++
      (" is a success status, but a problem document is a failure's body - use a failure status" : Str)⟩
  else .ok ⟨document.benzeneStatus, none, document.errors, some document, some false⟩

end Checked

section Built

variable [UnicodeData]

-- The results that come out of the factories. The other failure factories are
-- `failure` at a status of the vocabulary.
inductive Built : Result α → Prop
  | ok (payload : Option α) : Built (Result.ok payload)
  | created (payload : Option α) : Built (Result.created payload)
  | accepted (payload : Option α) : Built (Result.accepted payload)
  | updated (payload : Option α) : Built (Result.updated payload)
  | deleted (payload : Option α) : Built (Result.deleted payload)
  | ignored (payload : Option α) : Built (Result.ignored payload)
  | set {status : Str} {payload : Option α} {successful : Option Bool} {result : Result α}
      (h : Result.set status payload successful = .ok result) : Built result
  | failure (status : Str) (errors : List ErrorLike) :
      Built (Result.failure status (errors.map BenzeneError.coerce))
  | problem {document : ProblemDetails} {result : Result α}
      (h : Result.problem document = .ok result) : Built result

end Built

end Result

end Benzene.Results
