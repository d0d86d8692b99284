import Benzene.Data.Text

namespace Benzene.Results

open Benzene.Data

-- Statuses are strings, so that an application can add its own.
namespace Status

def ok : Str := "ok"
def created : Str := "created"
def accepted : Str := "accepted"
def updated : Str := "updated"
def deleted : Str := "deleted"
def ignored : Str := "ignored"
def badRequest : Str := "bad-request"
def validationError : Str := "validation-error"
def unauthorized : Str := "unauthorized"
def forbidden : Str := "forbidden"
def notFound : Str := "not-found"
def conflict : Str := "conflict"
def tooManyRequests : Str := "too-many-requests"
def timeout : Str := "timeout"
def notImplemented : Str := "not-implemented"
def serviceUnavailable : Str := "service-unavailable"
def unexpectedError : Str := "unexpected-error"

end Status

def successStatuses : List Str :=
  [Status.ok, Status.created, Status.accepted, Status.updated, Status.deleted, Status.ignored]

def failureStatuses : List Str :=
  [Status.badRequest, Status.validationError, Status.unauthorized, Status.forbidden,
    Status.notFound, Status.conflict, Status.tooManyRequests, Status.timeout,
    Status.notImplemented, Status.serviceUnavailable, Status.unexpectedError]

-- The closed set of framework-defined statuses.
def knownStatuses : List Str := successStatuses ++ failureStatuses

-- An unknown status is a failure.
def isSuccessful (status : Str) : Bool := status ∈ successStatuses

@[simp] theorem isSuccessful_ok : isSuccessful Status.ok = true := by
  simp [isSuccessful, successStatuses]

theorem isSuccessful_failure {status : Str} (h : status ∈ failureStatuses) :
    isSuccessful status = false := by
  simp only [failureStatuses, List.mem_cons, List.not_mem_nil, or_false] at h
  rcases h with rfl | rfl | rfl | rfl | rfl | rfl | rfl | rfl | rfl | rfl | rfl <;>
    simp [isSuccessful, successStatuses, Status.ok, Status.created, Status.accepted,
      Status.updated, Status.deleted, Status.ignored, Status.badRequest, Status.validationError,
      Status.unauthorized, Status.forbidden, Status.notFound, Status.conflict,
      Status.tooManyRequests, Status.timeout, Status.notImplemented, Status.serviceUnavailable,
      Status.unexpectedError]

end Benzene.Results
