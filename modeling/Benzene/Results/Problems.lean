import Benzene.Results.Result

namespace Benzene.Results

open Benzene.Data

def problemBase : Str := "https://benzene.app/problems/"

-- A row for each failure status: the URI's last segment, the title, the HTTP status.
structure ProblemRow where
  slug : Str
  title : Str
  httpStatus : Int

def problemRegistry : List (Str × ProblemRow) :=
  [(Status.badRequest, ⟨"bad-request", "Bad request", 400⟩),
    (Status.unauthorized, ⟨"unauthorized", "Unauthorized", 401⟩),
    (Status.forbidden, ⟨"forbidden", "Forbidden", 403⟩),
    (Status.notFound, ⟨"not-found", "Not found", 404⟩),
    (Status.conflict, ⟨"conflict", "Conflict", 409⟩),
    (Status.validationError, ⟨"validation-error", "Validation failed", 422⟩),
    (Status.tooManyRequests, ⟨"too-many-requests", "Too many requests", 429⟩),
    (Status.unexpectedError, ⟨"unexpected-error", "Unexpected error", 500⟩),
    (Status.notImplemented, ⟨"not-implemented", "Not implemented", 501⟩),
    (Status.serviceUnavailable, ⟨"service-unavailable", "Service unavailable", 503⟩),
    (Status.timeout, ⟨"timeout", "Timeout", 504⟩)]

-- None for a status of the application's own.
def problemType (status : Str) : Option Str :=
  (Entries.get? status problemRegistry).map fun row => problemBase ++ row.slug

def problemTitle (status : Str) : Option Str :=
  (Entries.get? status problemRegistry).map ProblemRow.title

-- The registry has a row for each failure status and for no other one.
theorem keys_problemRegistry (status : Str) :
    status ∈ Entries.keys problemRegistry ↔ status ∈ failureStatuses := by
  simp only [problemRegistry, failureStatuses, Entries.keys_cons, Entries.keys_nil, List.mem_cons,
    List.not_mem_nil, or_false]
  constructor
  · rintro (rfl | rfl | rfl | rfl | rfl | rfl | rfl | rfl | rfl | rfl | rfl) <;> simp
  · rintro (rfl | rfl | rfl | rfl | rfl | rfl | rfl | rfl | rfl | rfl | rfl) <;> simp

-- A type and a title come together.
theorem problemTitle_isSome (status : Str) :
    (problemTitle status).isSome = (problemType status).isSome := by
  simp [problemTitle, problemType]

end Benzene.Results
