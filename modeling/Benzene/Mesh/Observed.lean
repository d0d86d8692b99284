import Benzene.Mesh.CallTree
import Benzene.Mesh.Drift
import Benzene.Mesh.Instants
import Benzene.Transport.Consumers

namespace Benzene.Mesh.Tracing

open Benzene.Data Benzene.Results
open Benzene.Core (Context Value lowerKeys)
open Benzene.Transport (Texts)

section Payloads

def presentField (key : Str) : Json → Fields
  | .null => []
  | value => [(key, value)]

-- What the feed posts of a span: what is not known is left out.
def Span.toPayload (span : Span) : Fields :=
  [Json.field "traceId" (.str span.traceId), Json.field "spanId" (.str span.spanId),
    Json.field "service" (.str span.service), Json.field "topic" span.topic,
    Json.field "status" (.str span.status)] ++
  Json.optionalField "parentSpanId" span.parentSpanId ++
  Json.optionalField "instanceId" span.instanceId ++
  presentField "topicVersion" span.topicVersion ++
  [Json.field "durationMs" (.float span.durationMs), Json.field "startedAt" (.str span.startedAt)] ++
  presentField "correlationId" span.correlationId

def optionalText : Json → Option Str
  | .str text => some text
  | _ => none

-- The event of a span whose members are texts.
def Span.event (span : Span) : TraceEvent where
  traceId := span.traceId
  spanId := span.spanId
  service := span.service
  topic := (optionalText span.topic).getD []
  status := span.status
  parentSpanId := span.parentSpanId
  instanceId := span.instanceId
  topicVersion := optionalText span.topicVersion
  durationMs := some span.durationMs
  startedAt := some span.startedAt
  correlationId := optionalText span.correlationId

def TextOrNull (value : Json) : Prop := value = .null ∨ ∃ text, value = .str text

structure Span.Texts (span : Span) : Prop where
  topic : ∃ text, span.topic = .str text
  topicVersion : TextOrNull span.topicVersion
  correlationId : TextOrNull span.correlationId

theorem presentField_text {key : Str} {value : Json} (h : TextOrNull value) :
    presentField key value = Json.optionalField key (optionalText value) := by
  rcases h with rfl | ⟨text, rfl⟩
  · rfl
  · rfl

theorem Span.toPayload_event {span : Span} (h : span.Texts) : span.event.toPayload = span.toPayload := by
  obtain ⟨topic, htopic⟩ := h.topic
  unfold TraceEvent.toPayload Span.toPayload Span.event
  rw [presentField_text h.topicVersion, presentField_text h.correlationId, htopic]
  simp [optionalText, Json.optionalField, Json.field]

end Payloads

section Recorded

variable {ρ : Type}

-- A span as the middleware makes it: an id of its own, a stamp of the clock, and texts that can
-- be hashed.
structure Span.Recorded (process : Process ρ) (span : Span) : Prop where
  texts : span.Texts
  readable : span.event.Readable
  valid : ValidTrace span.trace
  showed : process.Showed span.startedAt

mutual

-- The names and the headers of a call are texts.
def Call.Plain : Call ρ → Prop
  | ⟨tracer, topic, _, version, activity⟩ =>
      Str.Encodable tracer.service ∧ (∃ text, topic = .str text ∧ Str.Encodable text) ∧ TextOrNull version ∧
        activity.Plain

def Activity.Plain : Activity ρ → Prop
  | .leave _ => True
  | .raise _ => True
  | .work _ rest => rest.Plain
  | .send _ headers target rest => Texts headers ∧ target.Plain ∧ rest.Plain

end

theorem textOrNull_orElse {value : Json} (h : TextOrNull value) : TextOrNull (Json.orElse value .null) := by
  unfold Json.orElse
  split
  · exact h
  · exact .inl rfl

theorem textOrNull_getField {fields : Fields} (h : Texts fields) (key : Str) :
    TextOrNull (Json.getField fields key) := by
  unfold Json.getField
  cases hget : Entries.get? key fields with
  | none => exact .inl rfl
  | some value => exact .inr (h _ (Entries.mem_of_get? hget))

theorem texts_set {key text : Str} {fields : Fields} (h : Texts fields) :
    Texts (Entries.set key (.str text) fields) := by
  intro entry hentry
  rcases Entries.mem_set hentry with rfl | hold
  · exact ⟨text, rfl⟩
  · exact h entry hold

variable [UnicodeData]

theorem texts_received {headers : Fields} (h : Texts headers) : Texts (received headers) := h.lowerKeys.lowerKeys

omit [UnicodeData] in
theorem textOrNull_joined (parsed : Option Trace) {headers : Fields} (h : Texts headers) :
    TextOrNull (joinedTracestate parsed headers) := by
  unfold joinedTracestate
  split
  · exact textOrNull_orElse (textOrNull_getField h _)
  · exact .inl rfl

theorem texts_sent {propagates : Bool} {ambient : Ambient} (hambient : TextOrNull ambient.tracestate) {headers : Fields}
    (h : Texts headers) : Texts (sent propagates ambient headers) := by
  unfold sent propagate
  split
  · split
    · exact h
    · rename_i traceparent _
      split
      · exact h
      · have hset : Texts (Entries.set ("traceparent" : Str) (.str traceparent) headers) := texts_set h
        dsimp only
        split
        · rename_i htruthy
          unfold currentTracestate at htruthy ⊢
          split at htruthy
          · rename_i hsome
            rw [if_pos hsome]
            rcases hambient with hnull | ⟨text, htext⟩
            · rw [hnull] at htruthy
              cases htruthy
            · rw [htext]
              exact texts_set hset
          · cases htruthy
        · exact hset
  · exact h

variable {process : Process ρ}

theorem texts_spanOf (tracer : Tracer ρ) {topic request version : Json} {headers : Fields}
    {result : Option (Result Value)} (trace : Trace) (parentSpanId : Option Str) (durationMs : PyFloat)
    (startedAt : Str) {text : Str} (htopic : topic = .str text) (hversion : TextOrNull version)
    (hheaders : Texts headers) :
    (spanOf tracer { contextOf topic request version headers with result := result } trace parentSpanId durationMs
      startedAt).Texts :=
  ⟨⟨text, htopic⟩, textOrNull_orElse hversion, textOrNull_getField (texts_received hheaders) _⟩

mutual

-- Whatever a call leads to, with or without propagation.
theorem Call.Reports.recorded (hsound : process.Sound) (call : Call ρ) (hplain : call.Plain) {headers : Fields}
    (hheaders : Texts headers) {trees : List SpanTree} (h : Call.Reports process call headers trees) :
    ∀ span ∈ SpanTree.handedAll trees, span.Recorded process := by
  cases h with
  | refused => exact fun _ hmem => (nomatch hmem)
  | @traced tracer topic request version activity headers parsed trace result children durationMs startedAt hshowed
      hparse hjoins hactivity =>
      obtain ⟨hservice, ⟨text, htopic, hencodable⟩, hversion, hrest⟩ := hplain
      have hvalid := hjoins.valid hsound fun other hother => parseTraceparent_valid (hother ▸ hparse)
      have hbelow :=
        Activity.Reports.recorded hsound activity hrest (textOrNull_joined parsed (texts_received hheaders)) hactivity
      intro span hspan
      rw [SpanTree.handedAll, SpanTree.handedAll, List.append_nil, SpanTree.handed] at hspan
      rcases List.mem_append.mp hspan with hspan | hself
      · exact hbelow span hspan
      · rw [List.mem_singleton.mp hself]
        subst htopic
        exact ⟨texts_spanOf tracer trace _ durationMs startedAt rfl hversion hheaders, ⟨hservice, hencodable⟩, hvalid,
          hshowed⟩

theorem Activity.Reports.recorded (hsound : process.Sound) (activity : Activity ρ) (hplain : activity.Plain)
    {ambient : Ambient} (hambient : TextOrNull ambient.tracestate) {result : Option (Result Value)}
    {trees : List SpanTree} (h : Activity.Reports process activity ambient result trees) :
    ∀ span ∈ SpanTree.handedAll trees, span.Recorded process := by
  cases h with
  | leave => exact fun _ hmem => (nomatch hmem)
  | raise => exact fun _ hmem => (nomatch hmem)
  | @work _ rest _ _ _ hrest => exact Activity.Reports.recorded hsound rest hplain hambient hrest
  | @send propagates headers target rest _ _ trees others htarget hrest =>
      obtain ⟨hheaders, htargetPlain, hrestPlain⟩ := hplain
      intro span hspan
      rw [SpanTree.handedAll_append] at hspan
      rcases List.mem_append.mp hspan with hfirst | hlater
      · exact Call.Reports.recorded hsound target htargetPlain (texts_sent hambient hheaders) htarget span hfirst
      · exact Activity.Reports.recorded hsound rest hrestPlain hambient hrest span hlater

end

end Recorded

section Links

namespace SpanTree

mutual

-- The spans of a tree, each with the one above it.
def links : SpanTree → List (Span × Span)
  | .node span _ children => linksOf span children

def linksOf (parent : Span) : List SpanTree → List (Span × Span)
  | [] => []
  | tree :: rest => (parent, tree.span) :: (tree.links ++ linksOf parent rest)

end

theorem span_mem_handed (tree : SpanTree) : tree.span ∈ tree.handed := by
  cases tree with
  | node span tracestate children => exact List.mem_append_right _ List.mem_cons_self

mutual

theorem links_handed (tree : SpanTree) : ∀ link ∈ tree.links, link.1 ∈ tree.handed ∧ link.2 ∈ tree.handed := by
  cases tree with
  | node span tracestate children =>
      intro link hlink
      obtain ⟨hparent, hchild⟩ := linksOf_handed span children link hlink
      refine ⟨?_, List.mem_append_left _ hchild⟩
      rcases hparent with rfl | hmem
      · exact List.mem_append_right _ List.mem_cons_self
      · exact List.mem_append_left _ hmem

theorem linksOf_handed (parent : Span) (trees : List SpanTree) :
    ∀ link ∈ linksOf parent trees, (link.1 = parent ∨ link.1 ∈ handedAll trees) ∧ link.2 ∈ handedAll trees := by
  cases trees with
  | nil => exact fun _ hmem => (nomatch hmem)
  | cons tree rest =>
      intro link hlink
      rcases List.mem_cons.mp hlink with rfl | hlink
      · exact ⟨.inl rfl, List.mem_append_left _ tree.span_mem_handed⟩
      · rcases List.mem_append.mp hlink with hfirst | hlater
        · obtain ⟨hparent, hchild⟩ := links_handed tree link hfirst
          exact ⟨.inr (List.mem_append_left _ hparent), List.mem_append_left _ hchild⟩
        · obtain ⟨hparent, hchild⟩ := linksOf_handed parent rest link hlater
          exact ⟨hparent.imp_right (List.mem_append_right _), List.mem_append_right _ hchild⟩

end

mutual

-- Every span but the first one is below another one.
theorem handed_linked (tree : SpanTree) :
    ∀ span ∈ tree.handed, span = tree.span ∨ ∃ parent, (parent, span) ∈ tree.links := by
  cases tree with
  | node own tracestate children =>
      intro span hspan
      rcases List.mem_append.mp hspan with hbelow | hself
      · exact .inr (handedAll_linked own children span hbelow)
      · exact .inl (List.mem_singleton.mp hself)

theorem handedAll_linked (own : Span) (trees : List SpanTree) :
    ∀ span ∈ handedAll trees, ∃ parent, (parent, span) ∈ linksOf own trees := by
  cases trees with
  | nil => exact fun _ hmem => (nomatch hmem)
  | cons tree rest =>
      intro span hspan
      rcases List.mem_append.mp hspan with hfirst | hlater
      · rcases handed_linked tree span hfirst with rfl | ⟨parent, hlink⟩
        · exact ⟨own, List.mem_cons_self⟩
        · exact ⟨parent, List.mem_cons_of_mem _ (List.mem_append_left _ hlink)⟩
      · obtain ⟨parent, hlink⟩ := handedAll_linked own rest span hlater
        exact ⟨parent, List.mem_cons_of_mem _ (List.mem_append_right _ hlink)⟩

end

mutual

theorem Connected.links (tree : SpanTree) (h : tree.Connected) :
    ∀ link ∈ tree.links, link.2.parentSpanId = some link.1.spanId := by
  cases tree with
  | node span tracestate children => exact ConnectedTo.links span children h

theorem ConnectedTo.links (parent : Span) (trees : List SpanTree) {tracestate : Json}
    (h : ConnectedTo parent.trace tracestate trees) :
    ∀ link ∈ linksOf parent trees, link.2.parentSpanId = some link.1.spanId := by
  cases trees with
  | nil => exact fun _ hmem => (nomatch hmem)
  | cons tree rest =>
      obtain ⟨⟨-, hparent, -⟩, htree, hrest⟩ := h
      intro link hlink
      rcases List.mem_cons.mp hlink with rfl | hlink
      · exact hparent
      · rcases List.mem_append.mp hlink with hfirst | hlater
        · exact Connected.links tree htree link hfirst
        · exact ConnectedTo.links parent rest hrest link hlater

end

theorem ConnectedTo.mem {trace : Trace} {tracestate : Json} {trees : List SpanTree}
    (h : ConnectedTo trace tracestate trees) :
    ∀ tree ∈ trees, tree.Connected ∧ tree.span.parentSpanId = some trace.2 := by
  induction trees with
  | nil => exact fun _ hmem => (nomatch hmem)
  | cons tree rest ih =>
      obtain ⟨⟨-, hparent, -⟩, htree, hrest⟩ := h
      intro other hother
      rcases List.mem_cons.mp hother with rfl | hlater
      · exact ⟨htree, hparent⟩
      · exact ih hrest other hlater

def NotBelow (above span : Span) : Prop := span.parentSpanId ≠ some above.spanId

mutual

-- Spans of different ids are handed over before the ones they are below.
theorem Connected.ordered (tree : SpanTree) (h : tree.Connected) (hnodup : (tree.handed.map Span.spanId).Nodup)
    (houtside : ∀ span ∈ tree.handed, NotBelow span tree.span) : tree.handed.Pairwise NotBelow := by
  cases tree with
  | node own tracestate children =>
      rw [handed, List.map_append] at hnodup
      obtain ⟨hchildren, -, hown⟩ := List.nodup_append.mp hnodup
      refine List.pairwise_append.mpr ⟨?_, List.pairwise_singleton _ _, ?_⟩
      · apply handedAll_ordered children (fun tree htree => (ConnectedTo.mem h tree htree).1) hchildren
        intro tree htree span hspan hbelow
        rw [(ConnectedTo.mem h tree htree).2] at hbelow
        exact hown _ (List.mem_map_of_mem hspan) own.spanId (List.mem_singleton_self _) (Option.some.inj hbelow).symm
      · intro span hspan last hlast
        rw [List.mem_singleton.mp hlast]
        exact houtside span (List.mem_append_left _ hspan)

theorem handedAll_ordered (trees : List SpanTree) (h : ∀ tree ∈ trees, tree.Connected)
    (hnodup : ((handedAll trees).map Span.spanId).Nodup)
    (houtside : ∀ tree ∈ trees, ∀ span ∈ handedAll trees, NotBelow span tree.span) :
    (handedAll trees).Pairwise NotBelow := by
  cases trees with
  | nil => exact List.Pairwise.nil
  | cons tree rest =>
      rw [handedAll, List.map_append] at hnodup
      obtain ⟨hfirst, hlater, hapart⟩ := List.nodup_append.mp hnodup
      refine List.pairwise_append.mpr ⟨?_, ?_, ?_⟩
      · apply Connected.ordered tree (h tree List.mem_cons_self) hfirst
        exact fun span hspan => houtside tree List.mem_cons_self span (List.mem_append_left _ hspan)
      · apply handedAll_ordered rest (fun other hother => h other (List.mem_cons_of_mem _ hother)) hlater
        exact fun other hother span hspan =>
          houtside other (List.mem_cons_of_mem _ hother) span (List.mem_append_right _ hspan)
      · intro span hspan later hlast hbelow
        obtain ⟨other, hother, hmem⟩ := mem_handedAll.mp hlast
        rcases handed_linked other later hmem with rfl | ⟨parent, hlink⟩
        · exact houtside other (List.mem_cons_of_mem _ hother) span (List.mem_append_left _ hspan) hbelow
        · have hparent := (links_handed other _ hlink).1
          have hcalled := Connected.links other (h other (List.mem_cons_of_mem _ hother)) _ hlink
          exact hapart _ (List.mem_map_of_mem hspan) _
            (List.mem_map_of_mem (mem_handedAll.mpr ⟨other, hother, hparent⟩))
            (Option.some.inj (hbelow.symm.trans hcalled))

end

end SpanTree

-- A service that sent a topic to another one.
abbrev CallEdge := Str × Json × Str

variable {ρ : Type}

def Call.service : Call ρ → Str
  | ⟨tracer, _, _, _, _⟩ => tracer.service

def Call.topic : Call ρ → Json
  | ⟨_, topic, _, _, _⟩ => topic

mutual

-- Who sent what to whom.
def Call.edges : Call ρ → List CallEdge
  | ⟨tracer, _, _, _, activity⟩ => activity.edges tracer.service

def Activity.edges (service : Str) : Activity ρ → List CallEdge
  | .leave _ => []
  | .raise _ => []
  | .work _ rest => rest.edges service
  | .send _ _ target rest => (service, target.topic, target.service) :: (target.edges ++ rest.edges service)

end

mutual

-- Who handled what.
def Call.handled : Call ρ → List (Str × Json)
  | ⟨tracer, topic, _, _, activity⟩ => activity.handled ++ [(tracer.service, topic)]

def Activity.handled : Activity ρ → List (Str × Json)
  | .leave _ => []
  | .raise _ => []
  | .work _ rest => rest.handled
  | .send _ _ target rest => target.handled ++ rest.handled

end

def linkEdge (link : Span × Span) : CallEdge := (link.1.service, link.2.topic, link.2.service)

def handling (span : Span) : Str × Json := (span.service, span.topic)

theorem Call.Traces.root {call : Call ρ} {tree : SpanTree} (h : call.Traces tree) :
    tree.span.service = call.service ∧ tree.span.topic = call.topic := by
  obtain ⟨tracer, topic, request, version, activity⟩ := call
  cases tree with
  | node span tracestate children => exact ⟨h.1, h.2.1⟩

mutual

theorem Call.Traces.links (call : Call ρ) {tree : SpanTree} (h : call.Traces tree) :
    tree.links.map linkEdge = call.edges := by
  obtain ⟨tracer, topic, request, version, activity⟩ := call
  cases tree with
  | node span tracestate children =>
      obtain ⟨hservice, -, -, hchildren⟩ := h
      rw [Call.edges, ← hservice]
      exact Activity.Traces.links activity span hchildren

theorem Activity.Traces.links (activity : Activity ρ) (span : Span) {trees : List SpanTree}
    (h : activity.Traces trees) : (SpanTree.linksOf span trees).map linkEdge = activity.edges span.service := by
  cases activity with
  | leave result =>
      cases h
      rfl
  | raise error =>
      cases h
      rfl
  | work effect rest =>
      rw [Activity.edges]
      exact Activity.Traces.links rest span h
  | send propagates headers target rest =>
      obtain ⟨tree, others, rfl, htree, hothers⟩ := h
      obtain ⟨hservice, htopic⟩ := htree.root
      rw [SpanTree.linksOf, List.map_cons, List.map_append, Call.Traces.links target htree,
        Activity.Traces.links rest span hothers, Activity.edges, linkEdge, hservice, htopic]

end

mutual

theorem Call.Traces.handed (call : Call ρ) {tree : SpanTree} (h : call.Traces tree) :
    tree.handed.map handling = call.handled := by
  obtain ⟨tracer, topic, request, version, activity⟩ := call
  cases tree with
  | node span tracestate children =>
      obtain ⟨hservice, htopic, -, hchildren⟩ := h
      rw [SpanTree.handed, List.map_append, Activity.Traces.handed activity hchildren, Call.handled, ← hservice,
        ← htopic]
      rfl

theorem Activity.Traces.handed (activity : Activity ρ) {trees : List SpanTree} (h : activity.Traces trees) :
    (SpanTree.handedAll trees).map handling = activity.handled := by
  cases activity with
  | leave result =>
      cases h
      rfl
  | raise error =>
      cases h
      rfl
  | work effect rest =>
      rw [Activity.handled]
      exact Activity.Traces.handed rest h
  | send propagates headers target rest =>
      obtain ⟨tree, others, rfl, htree, hothers⟩ := h
      rw [SpanTree.handedAll, List.map_append, Call.Traces.handed target htree, Activity.Traces.handed rest hothers,
        Activity.handled]

end

end Links

end Benzene.Mesh.Tracing
