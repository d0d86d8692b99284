import Benzene.Core.Envelope
import Benzene.Core.Pointers
import Benzene.Http.App
import Benzene.Resilience.Policies
import Benzene.Mesh.Feeds

namespace Benzene.Mesh.Tracing

open Benzene.Data Benzene.Results
open Benzene.Core (Context Step Middleware Value splitAt lowerKeys inWorld setResult)

section Traceparent

def hyphen : CodePoint := CodePoint.ofChar '-'

def zero : CodePoint := CodePoint.ofChar '0'

def isLowerHex (c : CodePoint) : Bool := (0x30 ≤ c.val && c.val ≤ 0x39) || (0x61 ≤ c.val && c.val ≤ 0x66)

def isHex (value : Str) (length : Nat) : Bool := value.length = length && value.all isLowerHex

def allZero (value : Str) : Bool := value.all (· = zero)

-- A trace id and the id of one of its spans.
abbrev Trace := Str × Str

def traceOf : List Str → Option Trace
  | [version, traceId, parentId, flags] =>
      if !(isHex version 2 && isHex traceId 32 && isHex parentId 16 && isHex flags 2) then none
      else if allZero traceId || allZero parentId then none
      else some (traceId, parentId)
  | _ => none

-- A header that is no text has no `split`.
def parseTraceparent : Json → Except PyError (Option Trace)
  | .str header => .ok (if header = [] then none else traceOf (splitAt hyphen header))
  | header => if header.truthy then .error ⟨.attributeError, []⟩ else .ok none

def traceparentOf (trace : Trace) : Str :=
  ("00-" : Str) ++ (trace.1 ++ (("-" : Str) ++ (trace.2 ++ ("-01" : Str))))

-- What a W3C header can say.
structure ValidTrace (trace : Trace) : Prop where
  traceId : isHex trace.1 32 = true
  spanId : isHex trace.2 16 = true
  traceIdNonzero : allZero trace.1 = false
  spanIdNonzero : allZero trace.2 = false

theorem hyphen_notMem {value : Str} (h : value.all isLowerHex = true) : hyphen ∉ value := by
  intro hmem
  have hhex := List.all_eq_true.mp h hyphen hmem
  revert hhex
  decide

theorem hyphen_notMem_of_isHex {value : Str} {length : Nat} (h : isHex value length = true) : hyphen ∉ value :=
  hyphen_notMem (Bool.and_eq_true_iff.mp h).2

theorem traceOf_eq_some {parts : List Str} {trace : Trace} (h : traceOf parts = some trace) : ValidTrace trace := by
  unfold traceOf at h
  split at h
  · rename_i version traceId parentId flags
    split at h
    · cases h
    · rename_i hhex
      split at h
      · cases h
      · rename_i hzero
        cases h
        simp only [Bool.not_eq_true', Bool.not_eq_false, Bool.and_eq_true] at hhex
        simp only [Bool.or_eq_true, not_or, Bool.not_eq_true] at hzero
        exact ⟨hhex.1.1.2, hhex.1.2, hzero.1, hzero.2⟩
  · cases h

theorem parseTraceparent_valid {header : Json} {trace : Trace} (h : parseTraceparent header = .ok (some trace)) :
    ValidTrace trace := by
  cases header with
  | str header =>
      unfold parseTraceparent at h
      dsimp only at h
      split at h
      · cases h
      · exact traceOf_eq_some (Except.ok.inj h)
  | null | bool | int | float | arr | obj =>
      unfold parseTraceparent at h
      dsimp only at h
      split at h <;> cases h

theorem splitAt_traceparentOf {trace : Trace} (h : ValidTrace trace) :
    splitAt hyphen (traceparentOf trace) = [("00" : Str), trace.1, trace.2, ("01" : Str)] := by
  have hversion : hyphen ∉ ("00" : Str) := by decide
  have hflags : hyphen ∉ ("01" : Str) := by decide
  show splitAt hyphen (("00" : Str) ++ hyphen :: (trace.1 ++ hyphen :: (trace.2 ++ hyphen :: ("01" : Str)))) = _
  rw [Core.splitAt_append hversion, Core.splitAt_append (hyphen_notMem_of_isHex h.traceId),
    Core.splitAt_append (hyphen_notMem_of_isHex h.spanId), Core.splitAt_of_notMem hflags]

-- What is forwarded is what the next service reads.
theorem parse_traceparentOf {trace : Trace} (h : ValidTrace trace) :
    parseTraceparent (.str (traceparentOf trace)) = .ok (some trace) := by
  have hne : traceparentOf trace ≠ [] := by
    intro heq
    cases heq
  have hversion : isHex ("00" : Str) 2 = true := by decide
  have hflags : isHex ("01" : Str) 2 = true := by decide
  unfold parseTraceparent
  dsimp only
  rw [if_neg hne, splitAt_traceparentOf h]
  unfold traceOf
  dsimp only
  rw [hversion, h.traceId, h.spanId, hflags, h.traceIdNonzero, h.spanIdNonzero]
  rfl

end Traceparent

section Middleware

-- The two context variables.
structure Ambient where
  trace : Option Trace := none
  tracestate : Json := .null

def currentTraceparent (ambient : Ambient) : Option Str := ambient.trace.map traceparentOf

def currentTracestate (ambient : Ambient) : Json := if ambient.trace.isSome then ambient.tracestate else .null

-- The record of one invocation. What comes from the envelope is what the envelope had.
structure Span where
  traceId : Str
  spanId : Str
  parentSpanId : Option Str
  service : Str
  instanceId : Option Str
  topic : Json
  topicVersion : Json
  status : Str
  durationMs : PyFloat
  startedAt : Str
  correlationId : Json

def Span.trace (span : Span) : Trace := (span.traceId, span.spanId)

-- What the middleware uses of the process it runs in: entropy and two clocks.
structure Process (ρ : Type) where
  urandom : Nat → ρ → List UInt8 × ρ
  utcNow : ρ → Str × ρ
  perfCounter : ρ → PyFloat × ρ
  elapsedMs : PyFloat → PyFloat → PyFloat

-- What `trace_middleware` is given.
structure Tracer (ρ : Type) where
  service : Str
  instanceId : Option Str
  exporter : Span → Py PyError ρ Unit

-- The state of a process: its context variables, the spans that were handed to an exporter, and
-- all that is not tracing.
structure World (ρ : Type) where
  ambient : Ambient
  handed : List Span
  rest : ρ

variable {ρ : Type}

def World.draw {α : Type} (source : ρ → α × ρ) : Step (World ρ) α := fun state =>
  (.ok (source state.2.rest).1, (state.1, { state.2 with rest := (source state.2.rest).2 }))

-- `set` on a context variable; the token is the value it had.
def setAmbient (ambient : Ambient) : Step (World ρ) Ambient := fun state =>
  (.ok state.2.ambient, (state.1, { state.2 with ambient := ambient }))

-- `with contextlib.suppress(Exception): exporter.export(event)`.
def exportSpan (tracer : Tracer ρ) (span : Span) : Step (World ρ) Unit := fun state =>
  let (outcome, rest) := tracer.exporter span state.2.rest
  let world : World ρ := { state.2 with handed := state.2.handed ++ [span], rest := rest }
  match outcome with
  | .error error => if error.isException then (.ok (), (state.1, world)) else (.error error, (state.1, world))
  | .ok () => (.ok (), (state.1, world))

def statusOf (result : Option (Result Value)) : Str :=
  match result with
  | some result => result.status
  | none => Status.unexpectedError

variable (process : Process ρ) (tracer : Tracer ρ)

def newTraceId (s : ρ) : Str × ρ := (hexBytes (process.urandom 16 s).1, (process.urandom 16 s).2)

def newSpanId (s : ρ) : Str × ρ := (hexBytes (process.urandom 8 s).1, (process.urandom 8 s).2)

-- The trace an invocation runs in, and the span that called it.
def joinTrace (parsed : Option Trace) : Step (World ρ) (Str × Option Str) :=
  match parsed with
  | some (traceId, parentSpanId) => pure (traceId, some parentSpanId)
  | none => do return (← World.draw (newTraceId process), none)

-- The state of an invalid trace is no state.
def joinedTracestate (parsed : Option Trace) (headers : Fields) : Json :=
  if parsed.isSome then Json.orElse (Json.getField headers "tracestate") .null else .null

def spanOf (context : Context) (trace : Trace) (parentSpanId : Option Str) (durationMs : PyFloat) (startedAt : Str) :
    Span where
  traceId := trace.1
  spanId := trace.2
  parentSpanId := parentSpanId
  service := tracer.service
  instanceId := tracer.instanceId
  topic := context.topic
  topicVersion := Json.orElse context.version .null
  status := statusOf context.result
  durationMs := durationMs
  startedAt := startedAt
  correlationId := Json.getField context.headers "x-correlation-id"

-- The `finally` of the middleware.
def closeSpan (token : Ambient) (trace : Trace) (parentSpanId : Option Str) (startedAt : Str) (start : PyFloat) :
    Step (World ρ) Unit := do
  let _ ← setAmbient token
  let (context, _) ← Py.get
  let finish ← World.draw process.perfCounter
  exportSpan tracer (spanOf tracer context trace parentSpanId (process.elapsedMs start finish) startedAt)

def traceMiddleware : Middleware (World ρ) := fun next => do
  let (context, _) ← Py.get
  let parsed ← Py.lift (parseTraceparent (Json.getField context.headers "traceparent"))
  let (traceId, parentSpanId) ← joinTrace process parsed
  let spanId ← World.draw (newSpanId process)
  let startedAt ← World.draw process.utcNow
  let start ← World.draw process.perfCounter
  let token ← setAmbient ⟨some (traceId, spanId), joinedTracestate parsed context.headers⟩
  Resilience.tryFinally next (closeSpan process tracer token (traceId, spanId) parentSpanId startedAt start)

variable {process : Process ρ} {tracer : Tracer ρ} {next : Step (World ρ) Unit} {context : Context} {world : World ρ}

theorem traceMiddleware_refused {error : PyError}
    (h : parseTraceparent (Json.getField context.headers "traceparent") = .error error) :
    traceMiddleware process tracer next (context, world) = (.error error, (context, world)) := by
  unfold traceMiddleware
  simp only [Py.bind_apply, Py.get_apply, h, Py.lift_apply]

-- The ids an invocation has: those of the trace it joins, or fresh ones.
inductive Joins (process : Process ρ) : Option Trace → Trace → Prop
  | joined (traceId parentSpanId : Str) (s : ρ) :
      Joins process (some (traceId, parentSpanId)) (traceId, (newSpanId process s).1)
  | fresh (s s' : ρ) : Joins process none ((newTraceId process s).1, (newSpanId process s').1)

-- What the clock has shown.
def Process.Showed (process : Process ρ) (stamp : Str) : Prop := ∃ s, (process.utcNow s).1 = stamp

theorem joinTrace_apply (parsed : Option Trace) (context : Context) (world : World ρ) :
    ∃ traceId rest, joinTrace process parsed (context, world) =
        (.ok (traceId, parsed.map Prod.snd), (context, ⟨world.ambient, world.handed, rest⟩)) ∧
      ∀ s, Joins process parsed (traceId, (newSpanId process s).1) := by
  cases parsed with
  | none =>
      exact ⟨(newTraceId process world.rest).1, (newTraceId process world.rest).2, rfl, fun s => .fresh world.rest s⟩
  | some trace => exact ⟨trace.1, world.rest, rfl, fun s => .joined trace.1 trace.2 s⟩

theorem exportSpan_apply (span : Span) (context : Context) (world : World ρ) :
    ∃ outcome rest, exportSpan tracer span (context, world) =
      (outcome, (context, ⟨world.ambient, world.handed ++ [span], rest⟩)) := by
  unfold exportSpan
  cases hexport : tracer.exporter span world.rest with
  | mk outcome rest =>
      cases outcome with
      | ok value => exact ⟨_, _, rfl⟩
      | error error =>
          dsimp only
          split
          · exact ⟨_, _, rfl⟩
          · exact ⟨_, _, rfl⟩

theorem tryFinally_state {σ α : Type} {body : Step σ α} {cleanup : Step σ Unit} {state after last : Context × σ}
    {outcome : Except PyError α} {ended : Except PyError Unit} (hbody : body state = (outcome, after))
    (hcleanup : cleanup after = (ended, last)) :
    ∃ outcome', Resilience.tryFinally body cleanup state = (outcome', last) := by
  unfold Resilience.tryFinally
  cases outcome with
  | ok value => cases ended <;> simp only [Py.bind_apply, Py.tryCatch, hbody, hcleanup] <;> exact ⟨_, rfl⟩
  | error error => cases ended <;> simp only [Py.bind_apply, Py.tryCatch, hbody, hcleanup, Py.throw_apply] <;>
      exact ⟨_, rfl⟩

theorem closeSpan_apply (token : Ambient) (trace : Trace) (parentSpanId : Option Str) (startedAt : Str)
    (start : PyFloat) (context : Context) (world : World ρ) : ∃ outcome durationMs rest,
      closeSpan process tracer token trace parentSpanId startedAt start (context, world) = (outcome, (context,
        ⟨token, world.handed ++ [spanOf tracer context trace parentSpanId durationMs startedAt], rest⟩)) := by
  obtain ⟨outcome, rest, hexport⟩ := @exportSpan_apply _ tracer
    (spanOf tracer context trace parentSpanId (process.elapsedMs start (process.perfCounter world.rest).1) startedAt)
    context ⟨token, world.handed, (process.perfCounter world.rest).2⟩
  refine ⟨outcome, process.elapsedMs start (process.perfCounter world.rest).1, rest, ?_⟩
  rw [← hexport]
  unfold closeSpan
  simp only [Py.bind_apply, Py.get_apply, World.draw, setAmbient]

-- Whatever the rest of the pipeline does and however it ends, one span is handed over after all
-- it handed over, and the context variables are what they were.
theorem traceMiddleware_traced {parsed : Option Trace}
    (h : parseTraceparent (Json.getField context.headers "traceparent") = .ok parsed) :
    ∃ trace rest, Joins process parsed trace ∧ ∀ outcome after inner,
      next (context, ⟨⟨some trace, joinedTracestate parsed context.headers⟩, world.handed, rest⟩) =
        (outcome, (after, inner)) →
      ∃ outcome' durationMs startedAt rest', process.Showed startedAt ∧
        traceMiddleware process tracer next (context, world) = (outcome', (after,
          ⟨world.ambient, inner.handed ++ [spanOf tracer after trace (parsed.map Prod.snd) durationMs startedAt],
            rest'⟩)) := by
  obtain ⟨traceId, rest, hjoin, hjoins⟩ := @joinTrace_apply _ process parsed context world
  refine ⟨(traceId, (newSpanId process rest).1),
    (process.perfCounter (process.utcNow (newSpanId process rest).2).2).2, hjoins rest, ?_⟩
  intro outcome after inner hnext
  obtain ⟨ended, durationMs, rest', hclose⟩ := @closeSpan_apply _ process tracer world.ambient
    (traceId, (newSpanId process rest).1) (parsed.map Prod.snd) (process.utcNow (newSpanId process rest).2).1
    (process.perfCounter (process.utcNow (newSpanId process rest).2).2).1 after inner
  obtain ⟨outcome', hfinally⟩ := tryFinally_state hnext hclose
  refine ⟨outcome', durationMs, (process.utcNow (newSpanId process rest).2).1, rest', ⟨_, rfl⟩, ?_⟩
  rw [← hfinally]
  unfold traceMiddleware
  simp only [Py.bind_apply, Py.get_apply, h, Py.lift_apply, hjoin, World.draw, setAmbient]

end Middleware

section Propagation

variable [UnicodeData]

def hasHeader (headers : Fields) (name : Str) : Bool := headers.any fun header => Str.lower header.1 = Str.lower name

-- The headers that `TracePropagatingMessageSender` sends, with the names of its two headers.
def propagate (header stateHeader : Str) (ambient : Ambient) (headers : Fields) : Fields :=
  match currentTraceparent ambient with
  | none => headers
  | some traceparent =>
      if hasHeader headers header then headers
      else
        let out := Entries.set header (.str traceparent) headers
        let tracestate := currentTracestate ambient
        if tracestate.truthy && !hasHeader out stateHeader then Entries.set stateHeader tracestate out else out

-- The headers that a delivered message's context has: the application lowers their names, and the
-- context does so again.
def received (headers : Fields) : Fields := lowerKeys (lowerKeys headers)

theorem lower_traceparent : Str.lower "traceparent" = "traceparent" := rfl

theorem lower_tracestate : Str.lower "tracestate" = "tracestate" := rfl

theorem notMem_keys_lowerKeys {headers : Fields} {name : Str} (hname : Str.lower name = name)
    (h : hasHeader headers name = false) : name ∉ Entries.keys (lowerKeys headers) := by
  intro hmem
  obtain ⟨field, hfield, hlower⟩ := Http.mem_keys_lowerKeys hmem
  have hnone := List.any_eq_false.mp h field hfield
  rw [hname, hlower] at hnone
  exact hnone (decide_eq_true rfl)

theorem notMem_keys {headers : Fields} {name : Str} (h : hasHeader headers name = false) :
    name ∉ Entries.keys headers := by
  intro hmem
  obtain ⟨field, hfield, rfl⟩ := List.mem_map.mp hmem
  exact List.any_eq_false.mp h field hfield (decide_eq_true rfl)

theorem lowerKeys_set {headers : Fields} {name : Str} (value : Json) (hname : Str.lower name = name)
    (h : hasHeader headers name = false) :
    lowerKeys (Entries.set name value headers) = Entries.set name value (lowerKeys headers) := by
  rw [Entries.set_eq_append (notMem_keys h), Http.lowerKeys_append, hname]

theorem lowerKeys_lowerKeys (hlower : ∀ text, Str.lower (Str.lower text) = Str.lower text) (headers : Fields) :
    lowerKeys (lowerKeys headers) = lowerKeys headers := by
  have hmap : (lowerKeys headers).map (fun header => (Str.lower header.1, header.2)) = lowerKeys headers := by
    conv_rhs => rw [← List.map_id (lowerKeys headers)]
    apply List.map_congr_left
    intro header hheader
    obtain ⟨field, -, hfield⟩ := Http.mem_keys_lowerKeys (List.mem_map_of_mem hheader)
    rw [← hfield, hlower, hfield]
    rfl
  have hnodup : (Entries.keys (lowerKeys headers)).Nodup := Entries.nodup_keys_update _ _ List.nodup_nil
  calc lowerKeys (lowerKeys headers)
      = Entries.update [] ((lowerKeys headers).map fun header => (Str.lower header.1, header.2)) := rfl
    _ = Entries.update [] (lowerKeys headers) := by rw [hmap]
    _ = lowerKeys headers := Entries.update_nil_of_nodup hnodup

-- The caller leaves both headers to the sender.
def LeavesTrace (headers : Fields) : Prop :=
  hasHeader headers "traceparent" = false ∧ hasHeader headers "tracestate" = false

theorem hasHeader_set {headers : Fields} {key name : Str} (value : Json) (hkey : Str.lower key ≠ Str.lower name)
    (habsent : key ∉ Entries.keys headers) :
    hasHeader (Entries.set key value headers) name = hasHeader headers name := by
  unfold hasHeader
  rw [Entries.set_eq_append habsent, List.any_append, List.any_cons, List.any_nil, Bool.or_false, decide_eq_false hkey,
    Bool.or_false]

omit [UnicodeData] in
theorem getField_absent {fields : Fields} {name : Str} (h : name ∉ Entries.keys fields) :
    Json.getField fields name = .null := by
  unfold Json.getField
  rw [(Entries.get?_eq_none_iff _ _).mpr h]
  rfl

theorem lower_traceparent_ne : Str.lower "traceparent" ≠ Str.lower "tracestate" := by
  rw [lower_traceparent, lower_tracestate]
  decide

theorem hasHeader_tracestate {headers : Fields} (h : LeavesTrace headers) (traceparent : Json) :
    hasHeader (Entries.set "traceparent" traceparent headers) "tracestate" = false := by
  rw [hasHeader_set _ lower_traceparent_ne (notMem_keys h.1)]
  exact h.2

theorem propagate_eq {headers : Fields} (h : LeavesTrace headers) (trace : Trace) (tracestate : Json) :
    propagate "traceparent" "tracestate" ⟨some trace, tracestate⟩ headers =
      if tracestate.truthy then
        Entries.set ("tracestate" : Str) tracestate
          (Entries.set ("traceparent" : Str) (.str (traceparentOf trace)) headers)
      else Entries.set ("traceparent" : Str) (.str (traceparentOf trace)) headers := by
  unfold propagate currentTraceparent currentTracestate
  simp only [Option.map_some, h.1, hasHeader_tracestate h, Option.isSome_some, if_true, Bool.not_false, Bool.and_true,
    Bool.false_eq_true, if_false]

-- What the next service reads of what is forwarded: the caller's trace and span, and the state
-- the trace had.
theorem received_propagate (hlower : ∀ text, Str.lower (Str.lower text) = Str.lower text) {headers : Fields}
    (h : LeavesTrace headers) {trace : Trace} (hvalid : ValidTrace trace) (tracestate : Json) :
    parseTraceparent (Json.getField (received (propagate "traceparent" "tracestate" ⟨some trace, tracestate⟩ headers))
        "traceparent") = .ok (some trace) ∧
      Json.orElse (Json.getField (received (propagate "traceparent" "tracestate" ⟨some trace, tracestate⟩ headers))
        "tracestate") .null = Json.orElse tracestate .null := by
  have hset := lowerKeys_set (.str (traceparentOf trace)) lower_traceparent h.1
  have hstate := hasHeader_tracestate h (.str (traceparentOf trace))
  unfold received
  rw [lowerKeys_lowerKeys hlower, propagate_eq h]
  cases htruthy : tracestate.truthy with
  | true =>
      rw [if_pos rfl, lowerKeys_set _ lower_tracestate hstate, hset]
      unfold Json.getField
      rw [Entries.get?_set, if_neg (by decide), Entries.get?_set_self, Entries.get?_set_self]
      exact ⟨parse_traceparentOf hvalid, rfl⟩
  | false =>
      have habsent := notMem_keys_lowerKeys lower_tracestate hstate
      rw [if_neg Bool.false_ne_true, getField_absent habsent, hset]
      unfold Json.getField
      rw [Entries.get?_set_self]
      refine ⟨parse_traceparentOf hvalid, ?_⟩
      unfold Json.orElse
      rw [htruthy]
      rfl

end Propagation

end Benzene.Mesh.Tracing
