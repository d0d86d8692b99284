import Benzene.Core.Pointers
import Benzene.Results.Result

namespace Benzene.Transport

open Benzene.Core Benzene.Data Benzene.Results

section Messages

-- `google.rpc.BadRequest.FieldViolation`; a member that is not set is empty.
structure FieldViolation where
  field : Str
  description : Str
  reason : Str
deriving DecidableEq

-- What an `Any` holds: a `google.rpc.BadRequest`, which has no violations to give
-- where its bytes are not read, or a message of another type.
inductive Packed
  | badRequest (violations : Option (List FieldViolation))
  | other (typeUrl : Str) (value : List UInt8)
deriving DecidableEq

-- `google.rpc.Status`.
structure RpcStatus where
  code : Int
  message : Str
  details : List Packed
deriving DecidableEq

-- The installed protos.
structure Protos where
  serialize : RpcStatus → List UInt8
  fromString : List UInt8 → Option RpcStatus
  reasonSupported : Bool

-- A message is parsed from what it is serialized to.
def Protos.RoundTrips (protos : Protos) (status : RpcStatus) : Prop :=
  protos.fromString (protos.serialize status) = some status

-- The value of a metadata entry.
inductive MetadataValue
  | bytes (value : List UInt8)
  | text (value : Str)

def grpcDetailsTrailer : Str := "grpc-status-details-bin"

def decodeError : PyError := ⟨.exception "DecodeError", []⟩

end Messages

section Details

variable [UnicodeData] [DigitData]

-- A member is set where the error has something for it.
def violationField (error : BenzeneError) : Except PyError Str :=
  match error.field with
  | some field => if field ≠ [] then pointerToDotted field else .ok []
  | none => .ok []

omit [UnicodeData] [DigitData] in
def violationReason (protos : Protos) (error : BenzeneError) : Str :=
  match error.code with
  | some code => if code ≠ [] ∧ protos.reasonSupported then code else []
  | none => []

def violationOf (protos : Protos) (error : BenzeneError) : Except PyError FieldViolation := do
  let field ← violationField error
  return ⟨field, error.message, violationReason protos error⟩

-- The status that is sent.
def richStatus (protos : Protos) (code : Int) (message : Str) (errors : List BenzeneError) :
    Except PyError RpcStatus :=
  if errors.isEmpty then .ok ⟨code, message, []⟩
  else do
    let violations ← errors.mapM (violationOf protos)
    return ⟨code, message, [.badRequest (some violations)]⟩

def detailsTrailer (installed : Option Protos) (code : Int) (message : Str) (errors : List BenzeneError) :
    Except PyError (Option (Str × List UInt8)) :=
  match installed with
  | none => .ok none
  | some protos => do
      let status ← richStatus protos code message errors
      return some (grpcDetailsTrailer, protos.serialize status)

-- `text or None`.
def orNone (text : Str) : Option Str := if text = [] then none else some text

omit [DigitData] in
def readViolation (protos : Protos) (violation : FieldViolation) : BenzeneError where
  message := violation.description
  field := orNone (dottedToPointer violation.field)
  code := if protos.reasonSupported then orNone violation.reason else none

-- `_violations`.
def violationErrors (protos : Protos) : List Packed → Except PyError (List BenzeneError)
  | [] => .ok []
  | .other _ _ :: rest => violationErrors protos rest
  | .badRequest none :: _ => .error decodeError
  | .badRequest (some violations) :: rest => do
      let errors ← violationErrors protos rest
      return violations.map (readViolation protos) ++ errors

-- The first trailer of the name that holds bytes decides.
def errorsFromTrailers (installed : Option Protos) (metadata : List (Str × MetadataValue)) :
    Except PyError (List BenzeneError) :=
  match installed, metadata with
  | none, _ => .ok []
  | some _, [] => .ok []
  | some protos, (key, .bytes value) :: rest =>
      if key = grpcDetailsTrailer then
        match protos.fromString value with
        | some status => violationErrors protos status.details
        | none => .ok []
      else errorsFromTrailers (some protos) rest
  | some protos, (_, .text _) :: rest => errorsFromTrailers (some protos) rest

end Details

section Crossing

variable [UnicodeData] [DigitData] {protos : Protos}

-- An error whose field is absent or a pointer to a place in the request, and
-- whose code is absent or not empty.
def Addressed (error : BenzeneError) : Prop :=
  (error.field = none ∨ ∃ segments, segments ≠ [] ∧ error.field = some (jsonPointer segments)) ∧
    error.code ≠ some []

-- The dotted path of its field is read back.
def PlainField (error : BenzeneError) : Prop :=
  ∀ segments, segments ≠ [] → error.field = some (jsonPointer segments) → Plain (segments.map Segment.text)

omit [UnicodeData] [DigitData] in
theorem jsonPointer_ne_nil {segments : List Segment} (h : segments ≠ []) : jsonPointer segments ≠ [] := by
  cases segments with
  | nil => exact absurd rfl h
  | cons segment segments => exact List.cons_ne_nil _ _

-- The violation an addressed error becomes.
def violation (error : BenzeneError) (texts : List Str) : FieldViolation :=
  ⟨texts.foldl dottedStep [], error.message, error.code.getD []⟩

omit [UnicodeData] [DigitData] in
theorem violationReason_addressed (hreason : protos.reasonSupported = true) {error : BenzeneError}
    (h : error.code ≠ some []) : violationReason protos error = error.code.getD [] := by
  unfold violationReason
  cases hcode : error.code with
  | none => rfl
  | some code =>
      have hne : code ≠ [] := by
        rintro rfl
        exact h hcode
      exact if_pos ⟨hne, hreason⟩

theorem violationField_addressed {error : BenzeneError} (h : Addressed error) :
    ∃ texts, violationField error = .ok (texts.foldl dottedStep []) ∧
      (error.field = none ∧ texts = [] ∨ texts ≠ [] ∧ error.field = some (pointerOf texts)) := by
  unfold violationField
  obtain hnone | ⟨segments, hne, hsome⟩ := h.1
  · rw [hnone]
    exact ⟨[], rfl, Or.inl ⟨rfl, rfl⟩⟩
  · rw [hsome]
    have htexts : segments.map Segment.text ≠ [] := by simpa using hne
    refine ⟨segments.map Segment.text, ?_, Or.inr ⟨htexts, rfl⟩⟩
    dsimp only
    rw [if_pos (jsonPointer_ne_nil hne)]
    exact pointerToDotted_pointerOf _

theorem violationOf_addressed (hreason : protos.reasonSupported = true) {error : BenzeneError}
    (h : Addressed error) : ∃ texts, violationOf protos error = .ok (violation error texts) ∧
      (error.field = none ∧ texts = [] ∨ texts ≠ [] ∧ error.field = some (pointerOf texts)) := by
  obtain ⟨texts, hfield, htexts⟩ := violationField_addressed h
  refine ⟨texts, ?_, htexts⟩
  unfold violationOf
  rw [hfield, violationReason_addressed hreason h.2]
  rfl

theorem readViolation_iff (hreason : protos.reasonSupported = true) {error : BenzeneError}
    (hcode : error.code ≠ some []) {texts : List Str}
    (h : error.field = none ∧ texts = [] ∨ texts ≠ [] ∧ error.field = some (pointerOf texts)) :
    readViolation protos (violation error texts) = error ↔ PlainField error := by
  obtain ⟨message, field, code⟩ := error
  have hcodeBack : orNone (code.getD []) = code := by
    cases code with
    | none => rfl
    | some code => exact if_neg fun heq => hcode (congrArg some heq)
  have hread : readViolation protos (violation ⟨message, field, code⟩ texts) = ⟨message, field, code⟩ ↔
      orNone (dottedToPointer (texts.foldl dottedStep [])) = field := by
    unfold readViolation violation
    rw [hreason, if_pos rfl]
    dsimp only
    rw [hcodeBack]
    simp
  rw [hread]
  obtain ⟨hnone, rfl⟩ | ⟨hne, hsome⟩ := h
  · dsimp only at hnone
    subst hnone
    constructor
    · intro _ segments _ hfield
      cases hfield
    · intro _
      rfl
  · dsimp only at hsome
    subst hsome
    have hpointer : pointerOf texts ≠ [] := by
      cases texts with
      | nil => exact absurd rfl hne
      | cons text texts => exact List.cons_ne_nil _ _
    have hback : orNone (dottedToPointer (texts.foldl dottedStep [])) = some (pointerOf texts) ↔
        dottedToPointer (texts.foldl dottedStep []) = pointerOf texts := by
      unfold orNone
      split
      · rename_i hnil
        rw [hnil]
        constructor
        · intro h
          cases h
        · intro h
          exact absurd h.symm hpointer
      · exact Option.some_inj
    rw [hback, dottedToPointer_iff]
    constructor
    · intro hplain segments _ hfield
      have hsame := pointerOf_injective (Option.some.inj hfield)
      rw [← hsame]
      exact hplain
    · intro hplain
      have hself : (texts.map Segment.name).map Segment.text = texts := by
        rw [List.map_map]
        exact List.map_id' texts
      have hfield := hplain (texts.map Segment.name) (by simpa using hne) (by rw [jsonPointer, hself])
      rw [hself] at hfield
      exact hfield

-- The errors survive when each of them does.
def Crosses (protos : Protos) (code : Int) (message : Str) (errors : List BenzeneError) : Prop :=
  ∃ trailer, detailsTrailer (some protos) code message errors = .ok (some trailer) ∧
    errorsFromTrailers (some protos) [(trailer.1, .bytes trailer.2)] = .ok errors

theorem crosses_iff_read {code : Int} {message : Str} {errors : List BenzeneError} {status : RpcStatus}
    (hstatus : richStatus protos code message errors = .ok status) (hround : protos.RoundTrips status) :
    Crosses protos code message errors ↔ violationErrors protos status.details = .ok errors := by
  have htrailer : detailsTrailer (some protos) code message errors =
      .ok (some (grpcDetailsTrailer, protos.serialize status)) := by
    unfold detailsTrailer
    dsimp only
    rw [hstatus]
    rfl
  have hread : errorsFromTrailers (some protos) [(grpcDetailsTrailer, .bytes (protos.serialize status))] =
      violationErrors protos status.details := by
    rw [errorsFromTrailers, if_pos rfl, hround]
  constructor
  · rintro ⟨trailer, hsent, hback⟩
    rw [htrailer] at hsent
    cases hsent
    rw [← hread]
    exact hback
  · intro hback
    exact ⟨_, htrailer, hread.trans hback⟩

theorem exists_violations (hreason : protos.reasonSupported = true) {errors : List BenzeneError}
    (h : ∀ error ∈ errors, Addressed error) : ∃ violations, errors.mapM (violationOf protos) = .ok violations ∧
      (violations.map (readViolation protos) = errors ↔ ∀ error ∈ errors, PlainField error) := by
  induction errors with
  | nil => exact ⟨[], rfl, by simp⟩
  | cons error errors ih =>
      obtain ⟨herror, hrest⟩ := List.forall_mem_cons.mp h
      obtain ⟨violations, hviolations, hread⟩ := ih hrest
      obtain ⟨texts, hviolation, htexts⟩ := violationOf_addressed hreason herror
      refine ⟨violation error texts :: violations, ?_, ?_⟩
      · rw [List.mapM_cons, hviolation, hviolations]
        rfl
      · rw [List.map_cons, List.cons.injEq, hread, List.forall_mem_cons, readViolation_iff hreason herror.2 htexts]

-- Structured errors survive a hop exactly when the segments of their pointers are
-- plain: that is when a pointer is read back from its dotted path, while its
-- segments are always those it was made of.
theorem structuredErrors_cross_iff :
    (∀ segments, pointerSegments (jsonPointer segments) = .ok (segments.map Segment.text)) ∧
      (∀ segments, (∃ dotted, pointerToDotted (jsonPointer segments) = .ok dotted ∧
        dottedToPointer dotted = jsonPointer segments) ↔ Plain (segments.map Segment.text)) ∧
      ∀ (protos : Protos) (code : Int) (message : Str) (errors : List BenzeneError),
        protos.reasonSupported = true →
        (∀ status, richStatus protos code message errors = .ok status → protos.RoundTrips status) →
        (∀ error ∈ errors, Addressed error) →
        (Crosses protos code message errors ↔ ∀ error ∈ errors, PlainField error) := by
  refine ⟨fun segments => pointerSegments_pointerOf _, ?_, ?_⟩
  · intro segments
    rw [← dottedToPointer_iff]
    constructor
    · rintro ⟨dotted, hdotted, hback⟩
      rw [jsonPointer, pointerToDotted_pointerOf] at hdotted
      cases hdotted
      exact hback
    · intro hback
      exact ⟨_, pointerToDotted_pointerOf _, hback⟩
  · intro protos code message errors hreason hround haddressed
    cases errors with
    | nil =>
        rw [crosses_iff_read rfl (hround _ rfl)]
        exact ⟨fun _ => List.forall_mem_nil _, fun _ => rfl⟩
    | cons error errors =>
        obtain ⟨violations, hviolations, hread⟩ := exists_violations hreason haddressed
        have hstatus : richStatus protos code message (error :: errors) =
            .ok ⟨code, message, [.badRequest (some violations)]⟩ := by
          unfold richStatus
          rw [if_neg (by simp), hviolations]
          rfl
        rw [crosses_iff_read hstatus (hround _ hstatus), ← hread]
        have hback : violationErrors protos [.badRequest (some violations)] =
            .ok (violations.map (readViolation protos) ++ []) := rfl
        rw [hback, List.append_nil, Except.ok.injEq]

end Crossing

section Sample

-- One violation, with the bytes it is sent as.
def sampleError : BenzeneError := ⟨"bad", some "/items/0", some "range"⟩

def sampleStatus : RpcStatus := ⟨3, "bad", [.badRequest (some [⟨"items[0]", "bad", "range"⟩])]⟩

def asciiBytes (text : String) : List UInt8 := text.toList.map fun c => c.toNat.toUInt8

def sampleBytes : List UInt8 :=
  [0x08, 3, 0x12, 3] ++ asciiBytes "bad" ++ [0x1A, 69] ++
    ([0x0A, 41] ++ asciiBytes "type.googleapis.com/google.rpc.BadRequest" ++ [0x12, 24] ++
      ([0x0A, 22] ++ ([0x0A, 8] ++ asciiBytes "items[0]" ++ [0x12, 3] ++ asciiBytes "bad" ++
        [0x1A, 5] ++ asciiBytes "range")))

def sampleProtos : Protos where
  serialize status := if status = sampleStatus then sampleBytes else []
  fromString bytes := if bytes = sampleBytes then some sampleStatus else none
  reasonSupported := true

theorem sampleError_crosses_iff :
    letI := UnicodeData.ascii
    letI := DigitData.ascii
    Crosses sampleProtos 3 "bad" [sampleError] ↔ ∀ error ∈ [sampleError], PlainField error := by
  let _ := UnicodeData.ascii
  let _ := DigitData.ascii
  refine structuredErrors_cross_iff.2.2 sampleProtos 3 "bad" [sampleError] rfl ?_ ?_
  · intro status hstatus
    have hsample : richStatus sampleProtos 3 "bad" [sampleError] = .ok sampleStatus := by rfl
    rw [hsample] at hstatus
    cases hstatus
    unfold Protos.RoundTrips sampleProtos
    dsimp only
    rw [if_pos rfl, if_pos rfl]
  · intro error herror
    rw [List.mem_singleton.mp herror]
    refine ⟨Or.inr ⟨[.name "items", .index 0], List.cons_ne_nil _ _, rfl⟩, ?_⟩
    decide

-- A property name with a dot becomes two names.
theorem street_lost :
    letI := UnicodeData.ascii
    letI := DigitData.ascii
    ∃ dotted, pointerToDotted (jsonPointer [.name "address.street"]) = .ok dotted ∧
      dottedToPointer dotted ≠ jsonPointer [.name "address.street"] := by
  let _ := UnicodeData.ascii
  let _ := DigitData.ascii
  exact ⟨"address.street", by rfl, by decide +kernel⟩

end Sample

end Benzene.Transport
