import Benzene.Mesh.Tracing
import Benzene.Transport.AwsClients

namespace Benzene.Mesh.Tracing

open Benzene.Data Benzene.Results
open Benzene.Core (Context Step Value runPipeline setResult inWorld)

section Calls

mutual

-- One delivered message, and what its service does with it.
inductive Call (ρ : Type)
  | mk (tracer : Tracer ρ) (topic request version : Json) (activity : Activity ρ)

-- What the pipeline behind the trace middleware does: it works, sends messages one after another,
-- whatever becomes of each, and ends.
inductive Activity (ρ : Type)
  | leave (result : Option (Result Value))
  | raise (error : PyError)
  | work (effect : ρ → ρ) (rest : Activity ρ)
  | send (propagates : Bool) (headers : Fields) (target : Call ρ) (rest : Activity ρ)

end

variable [UnicodeData] {ρ : Type} (process : Process ρ)

-- The headers that a message leaves with, through a propagating sender or a bare one.
def sent (propagates : Bool) (ambient : Ambient) (headers : Fields) : Fields :=
  if propagates then propagate "traceparent" "tracestate" ambient headers else headers

def contextOf (topic request version : Json) (headers : Fields) : Context :=
  ⟨topic, request, received headers, version, none, false⟩

mutual

def Call.run : Call ρ → Fields → Py PyError (World ρ) Unit
  | ⟨tracer, topic, request, version, activity⟩, headers => fun world =>
      let (outcome, (_, world)) :=
        runPipeline [traceMiddleware process tracer, fun _ => activity.run]
          (contextOf topic request version headers, world)
      (outcome, world)

def Activity.run : Activity ρ → Step (World ρ) Unit
  | .leave result =>
      match result with
      | some result => setResult result
      | none => pure ()
  | .raise error => Py.throw error
  | .work effect rest => do
      inWorld (Py.modify fun world => { world with rest := effect world.rest })
      rest.run
  | .send propagates headers target rest => do
      let (_, world) ← Py.get
      inWorld (Py.tryCatch (target.run (sent propagates world.ambient headers)) fun _ => pure ())
      rest.run

end

end Calls

section Spans

inductive SpanTree
  | node (span : Span) (tracestate : Json) (children : List SpanTree)

namespace SpanTree

def span : SpanTree → Span
  | .node span _ _ => span

def tracestate : SpanTree → Json
  | .node _ tracestate _ => tracestate

mutual

-- The order in which the spans of a tree are handed over: a span after those below it.
def handed : SpanTree → List Span
  | .node span _ children => handedAll children ++ [span]

def handedAll : List SpanTree → List Span
  | [] => []
  | tree :: rest => tree.handed ++ handedAll rest

end

theorem handedAll_append (trees more : List SpanTree) :
    handedAll (trees ++ more) = handedAll trees ++ handedAll more := by
  induction trees with
  | nil => rfl
  | cons tree rest ih => rw [List.cons_append, handedAll, handedAll, ih, List.append_assoc]

theorem mem_handedAll {span : Span} {trees : List SpanTree} :
    span ∈ handedAll trees ↔ ∃ tree ∈ trees, span ∈ tree.handed := by
  induction trees with
  | nil => simp [handedAll]
  | cons tree rest ih => simp [handedAll, ih]

end SpanTree

open SpanTree (handedAll)

variable [UnicodeData] {ρ : Type} (process : Process ρ)

mutual

-- The spans of a call that is delivered with some headers: none where its `traceparent` cannot be
-- read, else one above those of the messages it sends.
inductive Call.Reports : Call ρ → Fields → List SpanTree → Prop
  | refused {call : Call ρ} {headers : Fields} {error : PyError}
      (h : parseTraceparent (Json.getField (received headers) "traceparent") = .error error) :
      Call.Reports call headers []
  | traced {tracer : Tracer ρ} {topic request version : Json} {activity : Activity ρ} {headers : Fields}
      {parsed : Option Trace} {trace : Trace} {result : Option (Result Value)} {children : List SpanTree}
      (durationMs : PyFloat) {startedAt : Str} (hshowed : process.Showed startedAt)
      (h : parseTraceparent (Json.getField (received headers) "traceparent") = .ok parsed)
      (hjoins : Joins process parsed trace)
      (hactivity : Activity.Reports activity ⟨some trace, joinedTracestate parsed (received headers)⟩ result children) :
      Call.Reports ⟨tracer, topic, request, version, activity⟩ headers
        [.node (spanOf tracer { contextOf topic request version headers with result := result } trace
          (parsed.map Prod.snd) durationMs startedAt) (joinedTracestate parsed (received headers)) children]

inductive Activity.Reports : Activity ρ → Ambient → Option (Result Value) → List SpanTree → Prop
  | leave (result : Option (Result Value)) (ambient : Ambient) : Activity.Reports (.leave result) ambient result []
  | raise (error : PyError) (ambient : Ambient) : Activity.Reports (.raise error) ambient none []
  | work {effect : ρ → ρ} {rest : Activity ρ} {ambient : Ambient} {result : Option (Result Value)}
      {trees : List SpanTree} (h : Activity.Reports rest ambient result trees) :
      Activity.Reports (.work effect rest) ambient result trees
  | send {propagates : Bool} {headers : Fields} {target : Call ρ} {rest : Activity ρ} {ambient : Ambient}
      {result : Option (Result Value)} {trees others : List SpanTree}
      (htarget : Call.Reports target (sent propagates ambient headers) trees)
      (hrest : Activity.Reports rest ambient result others) :
      Activity.Reports (.send propagates headers target rest) ambient result (trees ++ others)

end

mutual

-- Whatever services do, what they hand over is what their calls report, and the context variables
-- end up as they were.
theorem Call.run_reports (call : Call ρ) (headers : Fields) (world : World ρ) : ∃ trees outcome rest,
    call.Reports process headers trees ∧
      call.run process headers world = (outcome, ⟨world.ambient, world.handed ++ handedAll trees, rest⟩) := by
  obtain ⟨tracer, topic, request, version, activity⟩ := call
  cases hparse : parseTraceparent (Json.getField (received headers) "traceparent") with
  | error error =>
      refine ⟨[], .error error, world.rest, .refused hparse, ?_⟩
      rw [Call.run]
      dsimp only [runPipeline]
      rw [traceMiddleware_refused hparse]
      simp [handedAll]
  | ok parsed =>
      obtain ⟨trace, rest, hjoins, hrun⟩ := @traceMiddleware_traced _ process tracer (activity.run process)
        (contextOf topic request version headers) world parsed hparse
      obtain ⟨result, trees, outcome, last, hactivity, hinner⟩ := Activity.run_reports activity
        (contextOf topic request version headers) rfl
        ⟨⟨some trace, joinedTracestate parsed (received headers)⟩, world.handed, rest⟩
      obtain ⟨outcome', durationMs, startedAt, rest', hshowed, heq⟩ := hrun _ _ _ hinner
      refine ⟨_, outcome', rest', .traced durationMs hshowed hparse hjoins hactivity, ?_⟩
      rw [Call.run]
      dsimp only [runPipeline]
      rw [heq]
      simp [handedAll, SpanTree.handed, List.append_assoc]

theorem Activity.run_reports (activity : Activity ρ) (context : Context) (hnone : context.result = none)
    (world : World ρ) : ∃ result trees outcome rest, activity.Reports process world.ambient result trees ∧
      activity.run process (context, world) =
        (outcome, ({ context with result := result }, ⟨world.ambient, world.handed ++ handedAll trees, rest⟩)) := by
  cases activity with
  | leave result =>
      refine ⟨result, [], .ok (), world.rest, .leave result _, ?_⟩
      cases result with
      | none =>
          rw [Activity.run]
          simp [handedAll, ← hnone]
      | some result =>
          rw [Activity.run]
          simp [handedAll, setResult]
  | raise error =>
      refine ⟨none, [], .error error, world.rest, .raise error _, ?_⟩
      rw [Activity.run]
      simp [handedAll, ← hnone]
  | work effect rest =>
      obtain ⟨result, trees, outcome, last, hreports, hrun⟩ :=
        Activity.run_reports rest context hnone { world with rest := effect world.rest }
      refine ⟨result, trees, outcome, last, .work hreports, ?_⟩
      rw [Activity.run, ← hrun]
      rfl
  | send propagates headers target rest =>
      obtain ⟨trees, ended, after, htarget, hcall⟩ :=
        Call.run_reports target (sent propagates world.ambient headers) world
      obtain ⟨result, others, outcome, last, hreports, hrun⟩ :=
        Activity.run_reports rest context hnone ⟨world.ambient, world.handed ++ handedAll trees, after⟩
      refine ⟨result, trees ++ others, outcome, last, .send htarget hreports, ?_⟩
      rw [Activity.run, SpanTree.handedAll_append, ← List.append_assoc, ← hrun]
      simp only [Py.bind_apply, Py.get_apply, inWorld, Py.tryCatch, hcall]
      cases ended <;> rfl

end

end Spans

section Entropy

variable {ρ : Type} {process : Process ρ}

-- Entropy has the length it is asked for, and is never all zeros.
structure Process.Sound (process : Process ρ) : Prop where
  length : ∀ n s, (process.urandom n s).1.length = n
  nonzero : ∀ n s, 0 < n → ∃ byte ∈ (process.urandom n s).1, byte ≠ 0

theorem isLowerHex_hexDigit (d : Nat) : isLowerHex (Str.hexDigit d) = true := by
  unfold isLowerHex Str.hexDigit
  by_cases h : d % 16 < 10
  · rw [if_pos h]
    simp only [Bool.or_eq_true, Bool.and_eq_true, decide_eq_true_eq]
    omega
  · rw [if_neg h]
    simp only [Bool.or_eq_true, Bool.and_eq_true, decide_eq_true_eq]
    omega

theorem hexDigit_zero {d : Nat} (h : Str.hexDigit d = zero) : d % 16 = 0 := by
  have hval := congrArg Fin.val h
  rw [show (zero : CodePoint).val = 0x30 from rfl] at hval
  unfold Str.hexDigit at hval
  by_cases hlt : d % 16 < 10
  · rw [if_pos hlt] at hval
    dsimp only at hval
    omega
  · rw [if_neg hlt] at hval
    dsimp only at hval
    omega

theorem isHex_hexBytes {bytes : List UInt8} {length : Nat} (h : 2 * bytes.length = length) :
    isHex (hexBytes bytes) length = true := by
  have hlength : (hexBytes bytes).length = length := by
    rw [← h]
    unfold hexBytes
    induction bytes generalizing length with
    | nil => rfl
    | cons byte rest ih =>
        rw [List.flatMap_cons, List.length_append, ih rfl, hexFixed_length, List.length_cons]
        omega
  unfold isHex
  rw [hlength, decide_eq_true rfl, Bool.true_and]
  apply List.all_eq_true.mpr
  intro c hc
  obtain ⟨byte, -, hc⟩ := List.mem_flatMap.mp hc
  simp only [Str.hexFixed, List.nil_append, List.mem_append, List.mem_singleton] at hc
  rcases hc with rfl | rfl
  · exact isLowerHex_hexDigit _
  · exact isLowerHex_hexDigit _

theorem allZero_hexBytes {bytes : List UInt8} (h : ∃ byte ∈ bytes, byte ≠ 0) : allZero (hexBytes bytes) = false := by
  obtain ⟨byte, hmem, hbyte⟩ := h
  apply Bool.eq_false_iff.mpr
  intro hzero
  have hdigit : ∀ c ∈ Str.hexFixed 2 byte.toNat, c = zero := fun c hc =>
    of_decide_eq_true (List.all_eq_true.mp hzero c (List.mem_flatMap.mpr ⟨byte, hmem, hc⟩))
  simp only [Str.hexFixed, List.nil_append, List.mem_append, List.mem_singleton] at hdigit
  have hhigh := hexDigit_zero (hdigit _ (.inl rfl))
  have hlow := hexDigit_zero (hdigit _ (.inr rfl))
  have hlt := byte.toNat_lt
  apply hbyte
  apply UInt8.toNat_inj.mp
  rw [show (0 : UInt8).toNat = 0 from rfl]
  omega

theorem Joins.valid {parsed : Option Trace} {trace : Trace} (h : Joins process parsed trace) (hsound : process.Sound)
    (hparsed : ∀ trace, parsed = some trace → ValidTrace trace) : ValidTrace trace := by
  have hspan (s : ρ) : isHex (newSpanId process s).1 16 = true ∧ allZero (newSpanId process s).1 = false :=
    ⟨isHex_hexBytes (by rw [hsound.length]), allZero_hexBytes (hsound.nonzero 8 s (by decide))⟩
  cases h with
  | joined traceId parentSpanId s =>
      have hvalid := hparsed _ rfl
      exact ⟨hvalid.traceId, (hspan s).1, hvalid.traceIdNonzero, (hspan s).2⟩
  | fresh s s' =>
      exact ⟨isHex_hexBytes (by rw [hsound.length]), (hspan s').1, allZero_hexBytes (hsound.nonzero 16 s (by decide)),
        (hspan s').2⟩

theorem Joins.fst {traceId parentSpanId : Str} {trace : Trace}
    (h : Joins process (some (traceId, parentSpanId)) trace) : trace.1 = traceId := by
  cases h with
  | joined => rfl

end Entropy

section Connection

namespace SpanTree

mutual

-- Every span below another one is in its trace, names it as its parent and has its state.
def Connected : SpanTree → Prop
  | .node span tracestate children => ConnectedTo span.trace tracestate children

def ConnectedTo (trace : Trace) (tracestate : Json) : List SpanTree → Prop
  | [] => True
  | tree :: rest =>
      (tree.span.traceId = trace.1 ∧ tree.span.parentSpanId = some trace.2 ∧ tree.tracestate = tracestate) ∧
        tree.Connected ∧ ConnectedTo trace tracestate rest

end

mutual

theorem Connected.traceId (tree : SpanTree) (h : tree.Connected) :
    ∀ span ∈ tree.handed, span.traceId = tree.span.traceId := by
  cases tree with
  | node span tracestate children =>
      intro other hother
      rcases List.mem_append.mp hother with hbelow | hself
      · exact ConnectedTo.traceId children h other hbelow
      · rw [List.mem_singleton.mp hself]
        rfl

theorem ConnectedTo.traceId (trees : List SpanTree) {trace : Trace} {tracestate : Json}
    (h : ConnectedTo trace tracestate trees) : ∀ span ∈ handedAll trees, span.traceId = trace.1 := by
  cases trees with
  | nil => exact fun _ hmem => (nomatch hmem)
  | cons tree rest =>
      obtain ⟨⟨hroot, -⟩, htree, hrest⟩ := h
      intro span hspan
      rcases List.mem_append.mp hspan with hfirst | hlater
      · rw [Connected.traceId tree htree span hfirst, hroot]
      · exact ConnectedTo.traceId rest hrest span hlater

end

end SpanTree

variable [UnicodeData] {ρ : Type}

mutual

-- Every message leaves through a propagating sender, and no service writes the headers itself.
def Call.Propagates : Call ρ → Prop
  | ⟨_, _, _, _, activity⟩ => activity.Propagates

def Activity.Propagates : Activity ρ → Prop
  | .leave _ => True
  | .raise _ => True
  | .work _ rest => rest.Propagates
  | .send propagates headers target rest =>
      propagates = true ∧ LeavesTrace headers ∧ target.Propagates ∧ rest.Propagates

end

def Activity.result : Activity ρ → Option (Result Value)
  | .leave result => result
  | .raise _ => none
  | .work _ rest => rest.result
  | .send _ _ _ rest => rest.result

mutual

-- One span for each call, below that of the call that made it.
def Call.Traces : Call ρ → SpanTree → Prop
  | ⟨tracer, topic, _, _, activity⟩, .node span _ children =>
      span.service = tracer.service ∧ span.topic = topic ∧ span.status = statusOf activity.result ∧
        activity.Traces children

def Activity.Traces : Activity ρ → List SpanTree → Prop
  | .leave _, trees => trees = []
  | .raise _, trees => trees = []
  | .work _ rest, trees => rest.Traces trees
  | .send _ _ target rest, trees => ∃ tree others, trees = tree :: others ∧ target.Traces tree ∧ rest.Traces others

end

omit [UnicodeData] in
theorem orElse_null (value : Json) : Json.orElse (Json.orElse value .null) .null = Json.orElse value .null := by
  unfold Json.orElse
  cases h : value.truthy <;> simp [h]

omit [UnicodeData] in
theorem joinedTracestate_null (parsed : Option Trace) (headers : Fields) :
    Json.orElse (joinedTracestate parsed headers) .null = joinedTracestate parsed headers := by
  unfold joinedTracestate
  split
  · exact orElse_null _
  · rfl

theorem Activity.Reports.result_eq {process : Process ρ} : ∀ (activity : Activity ρ) {ambient : Ambient}
    {result : Option (Result Value)} {trees : List SpanTree}, Activity.Reports process activity ambient result trees →
    result = activity.result
  | .leave _, _, _, _, h => by
      cases h with
      | leave => rfl
  | .raise _, _, _, _, h => by
      cases h with
      | raise => rfl
  | .work _ rest, _, _, _, h => by
      cases h with
      | work hrest => exact Activity.Reports.result_eq rest hrest
  | .send _ _ _ rest, _, _, _, h => by
      cases h with
      | send _ hrest => exact Activity.Reports.result_eq rest hrest

variable {process : Process ρ}

mutual

theorem Call.Reports.connected (hlower : ∀ text, Str.lower (Str.lower text) = Str.lower text) (hsound : process.Sound)
    (call : Call ρ) (hpropagates : call.Propagates) {headers : Fields} {parsed : Option Trace} {trees : List SpanTree}
    (hparse : parseTraceparent (Json.getField (received headers) "traceparent") = .ok parsed)
    (h : Call.Reports process call headers trees) : ∃ tree, trees = [tree] ∧ call.Traces tree ∧ tree.Connected ∧
      Joins process parsed tree.span.trace ∧ tree.span.parentSpanId = parsed.map Prod.snd ∧
      tree.tracestate = joinedTracestate parsed (received headers) := by
  cases h with
  | refused herror =>
      rw [hparse] at herror
      cases herror
  | @traced tracer topic request version activity headers parsed' trace result children durationMs startedAt hshowed
      hparse' hjoins hactivity =>
      rw [hparse] at hparse'
      cases hparse'
      have hvalid := hjoins.valid hsound fun other hother => parseTraceparent_valid (hother ▸ hparse)
      have hresult := Activity.Reports.result_eq activity hactivity
      obtain ⟨htraces, hconnected⟩ := Activity.Reports.connected hlower hsound activity hpropagates hvalid
        (joinedTracestate_null parsed _) hactivity
      exact ⟨_, rfl, ⟨rfl, rfl, congrArg statusOf hresult, htraces⟩, hconnected, hjoins, rfl, rfl⟩

theorem Activity.Reports.connected (hlower : ∀ text, Str.lower (Str.lower text) = Str.lower text)
    (hsound : process.Sound) (activity : Activity ρ) (hpropagates : activity.Propagates) {trace : Trace}
    (hvalid : ValidTrace trace) {tracestate : Json} (hstate : Json.orElse tracestate .null = tracestate)
    {result : Option (Result Value)} {trees : List SpanTree}
    (h : Activity.Reports process activity ⟨some trace, tracestate⟩ result trees) :
    activity.Traces trees ∧ SpanTree.ConnectedTo trace tracestate trees := by
  cases h with
  | leave => exact ⟨rfl, trivial⟩
  | raise => exact ⟨rfl, trivial⟩
  | @work _ rest _ _ _ hrest => exact Activity.Reports.connected hlower hsound rest hpropagates hvalid hstate hrest
  | @send propagates headers target rest _ _ trees others htarget hrest =>
      obtain ⟨rfl, hleaves, htargetPropagates, hrestPropagates⟩ := hpropagates
      obtain ⟨hparse, hreceived⟩ := received_propagate hlower hleaves hvalid tracestate
      obtain ⟨tree, rfl, htraces, hconnected, hjoins, hparent, htracestate⟩ :=
        Call.Reports.connected hlower hsound target htargetPropagates hparse htarget
      obtain ⟨hothers, hrestConnected⟩ :=
        Activity.Reports.connected hlower hsound rest hrestPropagates hvalid hstate hrest
      refine ⟨⟨tree, others, rfl, htraces, hothers⟩, ⟨hjoins.fst, hparent, ?_⟩, hconnected, hrestConnected⟩
      rw [htracestate]
      exact hreceived.trans hstate

end

-- A process whose entropy counts up.
def counting : Process Nat where
  urandom n s := ((1 :: List.replicate n (UInt8.ofNat s)).take n, s + 1)
  utcNow s := ("2024-01-01T00:00:00Z", s)
  perfCounter s := (.nan, s)
  elapsedMs _ _ := .nan

omit [UnicodeData] in
theorem sound_counting : counting.Sound := by
  constructor
  · intro n s
    simp [counting]
  · intro n s hn
    refine ⟨1, ?_, by decide⟩
    cases n with
    | zero => cases hn
    | succ n => simp [counting]

-- An exporter that is always down.
def downTracer (service : Str) : Tracer Nat := ⟨service, none, fun _ => Py.throw ⟨.exception "OSError", []⟩⟩

-- A service that takes an order and has it paid for; the payment raises.
def payCall : Call Nat := ⟨downTracer "payments", .str "payment:take", .null, .str [], .raise ⟨.valueError, []⟩⟩

def orderCall : Call Nat :=
  ⟨downTracer "orders", .str "order:place", .null, .str [],
    .send true [("x-tenant", .str "t-1")] payCall (.leave (some (Result.ok none)))⟩

omit [UnicodeData] in
theorem propagates_orderCall : letI := UnicodeData.ascii; orderCall.Propagates := by
  let _ := UnicodeData.ascii
  exact ⟨rfl, ⟨rfl, rfl⟩, trivial, trivial⟩

end Connection

end Benzene.Mesh.Tracing
