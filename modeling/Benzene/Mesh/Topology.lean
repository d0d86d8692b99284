import Benzene.Mesh.Ingested
import Benzene.Mesh.Observed

namespace Benzene.Mesh.Tracing

open Benzene.Data Benzene.Results
open Benzene.Core (Context Value)
open Benzene.Transport (Texts)
open SpanTree (handedAll)

section Fleet

variable [UnicodeData] {ρ : Type} (process : Process ρ)

-- A message from outside the fleet, and the headers it comes with.
abbrev Delivery (ρ : Type) := Call ρ × Fields

-- What was delivered, one after another, whatever became of each.
def deliver (deliveries : List (Delivery ρ)) (world : World ρ) : World ρ :=
  deliveries.foldl (fun world delivery => (delivery.1.run process delivery.2 world).2) world

-- The span outside the fleet that a message comes from.
def inboundSpan (headers : Fields) : Option Str :=
  match parseTraceparent (Json.getField (received headers) "traceparent") with
  | .ok parsed => parsed.map Prod.snd
  | .error _ => none

omit [UnicodeData] in
def edgesOf (deliveries : List (Delivery ρ)) : List CallEdge := deliveries.flatMap fun delivery => delivery.1.edges

omit [UnicodeData] in
def handledBy (deliveries : List (Delivery ρ)) : List (Str × Json) :=
  deliveries.flatMap fun delivery => delivery.1.handled

-- The fleet propagates, and speaks in texts.
structure Traceable (delivery : Delivery ρ) : Prop where
  propagates : delivery.1.Propagates
  plain : delivery.1.Plain
  headers : Texts delivery.2

theorem parseTraceparent_texts {headers : Fields} (h : Texts headers) :
    ∃ parsed, parseTraceparent (Json.getField (received headers) "traceparent") = .ok parsed ∧
      parsed.map Prod.snd = inboundSpan headers := by
  obtain ⟨parsed, hparse⟩ :
      ∃ parsed, parseTraceparent (Json.getField (received headers) "traceparent") = .ok parsed := by
    rcases textOrNull_getField (texts_received h) "traceparent" with hnull | ⟨text, htext⟩
    · rw [hnull]
      exact ⟨none, rfl⟩
    · rw [htext]
      exact ⟨_, rfl⟩
  refine ⟨parsed, hparse, ?_⟩
  unfold inboundSpan
  rw [hparse]

-- What a fleet reports of what it was delivered.
structure Recording (deliveries : List (Delivery ρ)) (trees : List SpanTree) : Prop where
  handled : (handedAll trees).map handling = handledBy deliveries
  edges : (trees.flatMap SpanTree.links).map linkEdge = edgesOf deliveries
  connected : ∀ tree ∈ trees, tree.Connected
  roots : ∀ tree ∈ trees, ∃ delivery ∈ deliveries, tree.span.parentSpanId = inboundSpan delivery.2
  recorded : ∀ span ∈ handedAll trees, span.Recorded process

theorem Recording.nil : Recording process [] [] :=
  ⟨rfl, rfl, fun _ h => absurd h List.not_mem_nil, fun _ h => absurd h List.not_mem_nil,
    fun _ h => absurd h List.not_mem_nil⟩

variable {process}

theorem Call.run_recording (hlower : ∀ text, Str.lower (Str.lower text) = Str.lower text) (hsound : process.Sound)
    {delivery : Delivery ρ} (h : Traceable delivery) (world : World ρ) : ∃ tree outcome rest,
    delivery.1.run process delivery.2 world = (outcome, ⟨world.ambient, world.handed ++ tree.handed, rest⟩) ∧
      Recording process [delivery] [tree] := by
  obtain ⟨parsed, hparse, hinbound⟩ := parseTraceparent_texts h.headers
  obtain ⟨trees, outcome, rest, hreports, hrun⟩ := Call.run_reports process delivery.1 delivery.2 world
  have hrecorded := Call.Reports.recorded hsound delivery.1 h.plain h.headers hreports
  obtain ⟨tree, rfl, htraces, hconnected, -, hparent, -⟩ :=
    Call.Reports.connected hlower hsound delivery.1 h.propagates hparse hreports
  refine ⟨tree, outcome, rest, by simpa [handedAll] using hrun, ?_, ?_, ?_, ?_, hrecorded⟩
  · simpa [handedAll, handledBy] using htraces.handed
  · simpa [edgesOf] using htraces.links
  · intro other hother
    rw [List.mem_singleton.mp hother]
    exact hconnected
  · intro other hother
    rw [List.mem_singleton.mp hother]
    exact ⟨delivery, List.mem_singleton_self _, hparent.trans hinbound⟩

theorem Recording.append {first later : List (Delivery ρ)} {trees others : List SpanTree}
    (h : Recording process first trees) (hlater : Recording process later others) :
    Recording process (first ++ later) (trees ++ others) where
  handled := by
    rw [SpanTree.handedAll_append, List.map_append, h.handled, hlater.handled, handledBy, handledBy, handledBy,
      List.flatMap_append]
  edges := by
    rw [List.flatMap_append, List.map_append, h.edges, hlater.edges, edgesOf, edgesOf, edgesOf, List.flatMap_append]
  connected := by
    intro tree htree
    exact (List.mem_append.mp htree).elim (h.connected tree) (hlater.connected tree)
  roots := by
    intro tree htree
    rcases List.mem_append.mp htree with hfirst | hother
    · obtain ⟨delivery, hmem, hparent⟩ := h.roots tree hfirst
      exact ⟨delivery, List.mem_append_left _ hmem, hparent⟩
    · obtain ⟨delivery, hmem, hparent⟩ := hlater.roots tree hother
      exact ⟨delivery, List.mem_append_right _ hmem, hparent⟩
  recorded := by
    intro span hspan
    rw [SpanTree.handedAll_append] at hspan
    exact (List.mem_append.mp hspan).elim (h.recorded span) (hlater.recorded span)

theorem deliver_recording (hlower : ∀ text, Str.lower (Str.lower text) = Str.lower text) (hsound : process.Sound)
    {deliveries : List (Delivery ρ)} (h : ∀ delivery ∈ deliveries, Traceable delivery) (world : World ρ) :
    ∃ trees, (deliver process deliveries world).handed = world.handed ++ handedAll trees ∧
      Recording process deliveries trees := by
  induction deliveries generalizing world with
  | nil => exact ⟨[], (List.append_nil _).symm, .nil process⟩
  | cons delivery rest ih =>
      obtain ⟨tree, outcome, after, hrun, hfirst⟩ :=
        Call.run_recording hlower hsound (h delivery List.mem_cons_self) world
      obtain ⟨trees, hhanded, hlater⟩ := ih (fun other hmem => h other (List.mem_cons_of_mem _ hmem))
        ⟨world.ambient, world.handed ++ tree.handed, after⟩
      refine ⟨tree :: trees, ?_, hfirst.append hlater⟩
      rw [deliver, List.foldl_cons, hrun]
      exact hhanded.trans (List.append_assoc _ _ _)

end Fleet

section Ids

variable [UnicodeData] {ρ : Type} {process : Process ρ} {deliveries : List (Delivery ρ)} {trees : List SpanTree}

-- No id was drawn twice, and none is that of a span outside.
structure Distinct (deliveries : List (Delivery ρ)) (spans : List Span) : Prop where
  nodup : (spans.map Span.spanId).Nodup
  foreign : ∀ delivery ∈ deliveries, ∀ span ∈ spans, inboundSpan delivery.2 ≠ some span.spanId

theorem Recording.linked (h : Recording process deliveries trees) {link : Span × Span}
    (hlink : link ∈ trees.flatMap SpanTree.links) :
    link.1 ∈ handedAll trees ∧ link.2 ∈ handedAll trees ∧ link.2.parentSpanId = some link.1.spanId := by
  obtain ⟨tree, htree, hmem⟩ := List.mem_flatMap.mp hlink
  obtain ⟨hparent, hchild⟩ := SpanTree.links_handed tree link hmem
  exact ⟨SpanTree.mem_handedAll.mpr ⟨tree, htree, hparent⟩, SpanTree.mem_handedAll.mpr ⟨tree, htree, hchild⟩,
    SpanTree.Connected.links tree (h.connected tree htree) link hmem⟩

-- A parent among the spans is the one above.
theorem Recording.link (h : Recording process deliveries trees) (hdistinct : Distinct deliveries (handedAll trees))
    {parent child : Span} (hparent : parent ∈ handedAll trees) (hchild : child ∈ handedAll trees)
    (hcalled : child.parentSpanId = some parent.spanId) : (parent, child) ∈ trees.flatMap SpanTree.links := by
  obtain ⟨tree, htree, hmem⟩ := SpanTree.mem_handedAll.mp hchild
  rcases SpanTree.handed_linked tree child hmem with rfl | ⟨above, hlink⟩
  · obtain ⟨delivery, hdelivery, hroot⟩ := h.roots tree htree
    exact absurd (hroot.symm.trans hcalled) (hdistinct.foreign delivery hdelivery parent hparent)
  · have hlink' : (above, child) ∈ trees.flatMap SpanTree.links := List.mem_flatMap.mpr ⟨tree, htree, hlink⟩
    obtain ⟨habove, -, hcalled'⟩ := h.linked hlink'
    have hid : above.spanId = parent.spanId := Option.some.inj (hcalled'.symm.trans hcalled)
    rw [← List.inj_on_of_nodup_map hdistinct.nodup habove hparent hid]
    exact hlink'

theorem Recording.mem_edges (h : Recording process deliveries trees) (hdistinct : Distinct deliveries (handedAll trees))
    {caller callee : Str} {topic : Json} : (caller, topic, callee) ∈ edgesOf deliveries ↔
      ∃ parent ∈ handedAll trees, ∃ child ∈ handedAll trees, child.parentSpanId = some parent.spanId ∧
        parent.service = caller ∧ child.topic = topic ∧ child.service = callee := by
  rw [← h.edges, List.mem_map]
  constructor
  · rintro ⟨link, hlink, hedge⟩
    obtain ⟨hparent, hchild, hcalled⟩ := h.linked hlink
    cases hedge
    exact ⟨link.1, hparent, link.2, hchild, hcalled, rfl, rfl, rfl⟩
  · rintro ⟨parent, hparent, child, hchild, hcalled, rfl, rfl, rfl⟩
    exact ⟨(parent, child), h.link hdistinct hparent hchild hcalled, rfl⟩

theorem Recording.mem_handled (h : Recording process deliveries trees) {service : Str} {topic : Json} :
    (service, topic) ∈ handledBy deliveries ↔
      ∃ span ∈ handedAll trees, span.service = service ∧ span.topic = topic := by
  rw [← h.handled, List.mem_map]
  constructor
  · rintro ⟨span, hspan, heq⟩
    exact ⟨span, hspan, congrArg Prod.fst heq, congrArg Prod.snd heq⟩
  · rintro ⟨span, hspan, rfl, rfl⟩
    exact ⟨span, hspan, rfl⟩

end Ids

section Observations

variable [UnicodeData] {ρ : Type} {process : Process ρ} {deliveries : List (Delivery ρ)} {trees : List SpanTree}

-- The clock shows date-times.
def Process.Timed (process : Process ρ) : Prop := ∀ s, ∃ t, Rfc3339.instant (process.utcNow s).1 = some t

def spanPost (spans : List Span) : Post :=
  ⟨.traces, [Json.field "events" (.arr (spans.map fun span => .obj span.toPayload))]⟩

omit [UnicodeData] in
theorem spanPost_eq {spans : List Span} (h : ∀ span ∈ spans, span.Recorded process) :
    spanPost spans = tracePost (spans.map Span.event) := by
  unfold spanPost tracePost
  rw [List.map_map]
  have hpayload : (spans.map fun span => Json.obj span.toPayload) =
      spans.map ((fun event => Json.obj event.toPayload) ∘ Span.event) := by
    apply List.map_congr_left
    intro span hspan
    exact congrArg Json.obj (Span.toPayload_event (h span hspan).texts).symm
  rw [hpayload]

omit [UnicodeData] in
theorem Span.Recorded.topic_eq {span : Span} (h : span.Recorded process) : .str span.event.topic = span.topic := by
  obtain ⟨text, htext⟩ := h.texts.topic
  unfold Span.event
  rw [htext]
  rfl

omit [UnicodeData] in
theorem Span.Recorded.stamped {span : Span} (h : span.Recorded process) (htimed : process.Timed) :
    span.event.Stamped := by
  obtain ⟨s, hs⟩ := h.showed
  obtain ⟨t, ht⟩ := htimed s
  exact ⟨span.startedAt, t, rfl, hs ▸ ht⟩

omit [UnicodeData] in
theorem Span.Recorded.spanId_ne {span : Span} (h : span.Recorded process) : span.event.spanId ≠ [] := by
  intro hnil
  have hhex := h.valid.spanId
  rw [show span.trace.2 = [] from hnil] at hhex
  cases hhex

variable (h : Recording process deliveries trees) {spans : List Span} (hperm : spans.Perm (handedAll trees))
include h hperm

theorem Recording.recorded_of_perm : ∀ span ∈ spans, span.Recorded process :=
  fun span hspan => h.recorded span (hperm.subset hspan)

theorem Recording.handled_iff {topic name : Str} :
    (∃ event ∈ spans.map Span.event, event.topic = topic ∧ event.service = name) ↔
      (name, .str topic) ∈ handledBy deliveries := by
  rw [h.mem_handled]
  constructor
  · rintro ⟨event, hevent, rfl, rfl⟩
    obtain ⟨span, hspan, rfl⟩ := List.mem_map.mp hevent
    exact ⟨span, hperm.subset hspan, rfl, (h.recorded span (hperm.subset hspan)).topic_eq.symm⟩
  · rintro ⟨span, hspan, rfl, htopic⟩
    refine ⟨span.event, List.mem_map_of_mem (hperm.symm.subset hspan), ?_, rfl⟩
    exact Json.str.inj ((h.recorded span hspan).topic_eq.trans htopic)

theorem Recording.called_iff (hdistinct : Distinct deliveries (handedAll trees)) {topic name : Str} :
    (∃ event ∈ spans.map Span.event, event.topic = topic ∧
        event.caller ((spans.map Span.event).foldl indexSpan Dict.empty) = name ∧ name ≠ [] ∧ name ≠ event.service) ↔
      name ≠ [] ∧ ∃ callee, name ≠ callee ∧ (name, .str topic, callee) ∈ edgesOf deliveries := by
  have hnodup : ((spans.map Span.event).map TraceEvent.spanId).Nodup := by
    rw [List.map_map]
    exact (hperm.map Span.spanId).nodup_iff.mpr hdistinct.nodup
  have hids : ∀ event ∈ spans.map Span.event, event.spanId ≠ [] := by
    intro event hevent
    obtain ⟨span, hspan, rfl⟩ := List.mem_map.mp hevent
    exact (h.recorded span (hperm.subset hspan)).spanId_ne
  constructor
  · rintro ⟨event, hevent, rfl, hcaller, hname, hforeign⟩
    obtain ⟨child, hchild, rfl⟩ := List.mem_map.mp hevent
    obtain ⟨other, hother, hcalled, hservice⟩ := (caller_indexed hnodup hids hname).mp hcaller
    obtain ⟨parent, hparent, rfl⟩ := List.mem_map.mp hother
    have hchild' := hperm.subset hchild
    refine ⟨hname, child.service, hforeign, (h.mem_edges hdistinct).mpr ?_⟩
    exact ⟨parent, hperm.subset hparent, child, hchild', hcalled, hservice, (h.recorded child hchild').topic_eq.symm,
      rfl⟩
  · rintro ⟨hname, callee, hforeign, hedge⟩
    obtain ⟨parent, hparent, child, hchild, hcalled, hservice, htopic, rfl⟩ := (h.mem_edges hdistinct).mp hedge
    refine ⟨child.event, List.mem_map_of_mem (hperm.symm.subset hchild), ?_, ?_, hname, hforeign⟩
    · exact Json.str.inj ((h.recorded child hchild).topic_eq.trans htopic)
    · exact (caller_indexed hnodup hids hname).mpr
        ⟨parent.event, List.mem_map_of_mem (hperm.symm.subset hparent), hcalled, hservice⟩

end Observations

section Fleets

variable [UnicodeData] {ρ : Type} {process : Process ρ} {deliveries : List (Delivery ρ)} {trees : List SpanTree}

-- The collector after registrations and then the spans in some batches.
def observing (registrations : List Fields) (batches : List (List Span)) : Catalog :=
  (Collector.empty.run (registrations.map (Post.mk .register) ++ batches.map spanPost)).catalog

theorem observing_eq (h : Recording process deliveries trees) (registrations : List Fields) {batches : List (List Span)}
    (hperm : batches.flatten.Perm (handedAll trees)) :
    observing registrations batches = (Catalog.empty.run (registrations.map (Post.mk .register))).run
      ((batches.map (List.map Span.event)).map tracePost) := by
  have hposts : batches.map spanPost = (batches.map (List.map Span.event)).map tracePost := by
    rw [List.map_map]
    apply List.map_congr_left
    intro batch hbatch
    apply @spanPost_eq ρ process
    intro span hspan
    exact h.recorded_of_perm hperm span (List.mem_flatten.mpr ⟨batch, hbatch, hspan⟩)
  rw [observing, Collector.run_catalog, hposts, Catalog.run, List.foldl_append]
  rfl

theorem readable_events (h : Recording process deliveries trees) {spans : List Span}
    (hperm : spans.Perm (handedAll trees)) : ∀ event ∈ spans.map Span.event, event.Readable := by
  intro event hevent
  obtain ⟨span, hspan, rfl⟩ := List.mem_map.mp hevent
  exact (h.recorded_of_perm hperm span hspan).readable

theorem collected_observing (h : Recording process deliveries trees) (registrations : List Fields)
    {batches : List (List Span)} (hperm : batches.flatten.Perm (handedAll trees)) :
    Collected (Catalog.empty.run (registrations.map (Post.mk .register))) (batches.flatten.map Span.event)
      (observing registrations batches) := by
  rw [observing_eq h registrations hperm, List.map_flatten]
  apply collected_run (onlyRegistered_run registrations) (events_registered registrations)
  rw [← List.map_flatten]
  exact readable_events h hperm

-- Whatever the fleet did and in whatever order its spans arrived: of the edges the services
-- declare, the collector reports exactly those as observed over which a message went.
theorem deliver_observed (hlower : ∀ text, Str.lower (Str.lower text) = Str.lower text) (hsound : process.Sound)
    (htimed : process.Timed) {deliveries : List (Delivery ρ)} (htraceable : ∀ delivery ∈ deliveries, Traceable delivery)
    (start : ρ) (hdistinct : Distinct deliveries (deliver process deliveries ⟨{}, [], start⟩).handed)
    (registrations : List Fields) (batches : List (List Span))
    (hperm : batches.flatten.Perm (deliver process deliveries ⟨{}, [], start⟩).handed) {body : Fields} {topic : Str}
    (hbody : require body "topic" = .ok topic) (hknown : topic ∈ (observing registrations batches).topics) :
    ∃ answer, (observing registrations batches).queryTopic body = .ok answer ∧
      (∀ name ∈ (observing registrations batches).consumersOf topic,
        lastObservedAt answer "consumerActivity" name ≠ .null ↔ (name, .str topic) ∈ handledBy deliveries) ∧
      ∀ name ∈ (observing registrations batches).providersOf topic,
        lastObservedAt answer "providerActivity" name ≠ .null ↔
          name ≠ [] ∧ ∃ callee, name ≠ callee ∧ (name, .str topic, callee) ∈ edgesOf deliveries := by
  obtain ⟨trees, hhanded, hrecording⟩ := deliver_recording hlower hsound htraceable ⟨{}, [], start⟩
  rw [List.nil_append] at hhanded
  rw [hhanded] at hdistinct hperm
  have hcollected := collected_observing hrecording registrations hperm
  have hstamped : ∀ event ∈ batches.flatten.map Span.event, event.Stamped := by
    intro event hevent
    obtain ⟨span, hspan, rfl⟩ := List.mem_map.mp hevent
    exact (hrecording.recorded_of_perm hperm span hspan).stamped htimed
  have hevents := hcollected.timed hstamped
  obtain ⟨handlers, hhandlers, -⟩ := observedHandlers_ok hevents topic
  obtain ⟨callers, hcallers, -⟩ := observedCallers_ok hevents fun event hevent _ => hcollected.hashable event hevent
  obtain ⟨answer, hanswer⟩ := queryTopic_ok hbody hknown (activityMember_ok_of fun _ => ⟨callers, hcallers⟩)
    (activityMember_ok_of fun _ => ⟨handlers, hhandlers⟩)
  refine ⟨answer, hanswer, ?_, ?_⟩
  · intro name hname
    rw [(holds_consumers hevents hbody hanswer hname).ne_null_iff, hcollected.handled hstamped,
      hrecording.handled_iff hperm]
  · intro name hname
    rw [(holds_providers hevents hbody hanswer hname).ne_null_iff, hcollected.called hstamped,
      hrecording.called_iff hperm hdistinct]

-- The order service declares the payment it sends; the payment service declares nothing it handles.
def ordersBody : Fields :=
  [Json.field "service" (.str "orders"), Json.field "requests" (.arr [.obj [Json.field "topic" (.str "order:place")]]),
    Json.field "events" (.arr []), Json.field "sends" (.arr [.obj [Json.field "topic" (.str "payment:take")]])]

def paymentsBody : Fields :=
  [Json.field "service" (.str "payments"), Json.field "requests" (.arr []), Json.field "events" (.arr []),
    Json.field "sends" (.arr [])]

omit [UnicodeData] in
theorem timed_counting : counting.Timed := by
  intro s
  have hinstant : Rfc3339.instant ("2024-01-01T00:00:00Z" : Str) = some 1704067200000000 := by decide +kernel
  exact ⟨_, hinstant⟩

omit [UnicodeData] in
theorem traceable_orderCall :
    letI := UnicodeData.ascii; ∀ delivery ∈ [(orderCall, ([] : Fields))], Traceable delivery := by
  let _ := UnicodeData.ascii
  intro delivery hdelivery
  rw [List.mem_singleton.mp hdelivery]
  have htexts : Texts [(("x-tenant" : Str), Json.str "t-1")] := by
    intro entry hentry
    rw [List.mem_singleton.mp hentry]
    exact ⟨_, rfl⟩
  have hpay : payCall.Plain := ⟨by decide, ⟨_, rfl, by decide⟩, .inr ⟨_, rfl⟩, trivial⟩
  exact ⟨propagates_orderCall, ⟨by decide, ⟨_, rfl, by decide⟩, .inr ⟨_, rfl⟩, htexts, hpay, trivial⟩,
    fun _ h => (nomatch h)⟩

omit [UnicodeData] in
theorem distinct_orderCall : letI := UnicodeData.ascii
    Distinct [(orderCall, [])] (deliver counting [(orderCall, [])] ⟨{}, [], 0⟩).handed := by
  let _ := UnicodeData.ascii
  constructor
  · decide +kernel
  · intro delivery hdelivery span _
    rw [List.mem_singleton.mp hdelivery]
    exact fun h => (nomatch h)

omit [UnicodeData] in
theorem deliver_observed_order : letI := UnicodeData.ascii
    ∃ answer,
      (observing [ordersBody, paymentsBody] [(deliver counting [(orderCall, [])] ⟨{}, [], 0⟩).handed]).queryTopic
        [Json.field "topic" (.str "payment:take")] = .ok answer ∧
      lastObservedAt answer "providerActivity" "orders" ≠ .null := by
  let _ := UnicodeData.ascii
  obtain ⟨answer, hanswer, -, hproviders⟩ :=
    deliver_observed Transport.Aws.lower_lower_ascii sound_counting timed_counting
    traceable_orderCall 0 distinct_orderCall [ordersBody, paymentsBody]
    [(deliver counting [(orderCall, [])] ⟨{}, [], 0⟩).handed] (.of_eq (List.append_nil _))
    (show require [Json.field "topic" (.str "payment:take")] "topic" = .ok "payment:take" from rfl) (by decide +kernel)
  refine ⟨answer, hanswer, (hproviders "orders" (by decide +kernel)).mpr ⟨by decide, "payments", by decide, ?_⟩⟩
  exact List.mem_cons_self

-- The drift that a fleet was really seen to show.
def ShowsDrift (catalog : Catalog) (deliveries : List (Delivery ρ)) (edge : Edge) : Prop :=
  (consumerDrift (catalog.serviceOrNew edge.1) edge.2 = true ∧ (edge.1, .str edge.2) ∈ handledBy deliveries) ∨
    (providerDrift (catalog.serviceOrNew edge.1) edge.2 = true ∧
      ∃ callee, edge.1 ≠ callee ∧ (edge.1, .str edge.2, callee) ∈ edgesOf deliveries)

theorem Recording.served_iff (h : Recording process deliveries trees) {spans : List Span}
    (hperm : spans.Perm (handedAll trees)) {c : Catalog} {edge : Edge} :
    ServedEdge c (spans.map Span.event) edge ↔
      consumerDrift (c.serviceOrNew edge.1) edge.2 = true ∧ (edge.1, .str edge.2) ∈ handledBy deliveries := by
  rw [← h.handled_iff hperm]
  constructor
  · rintro ⟨event, hevent, rfl, hdrift⟩
    exact ⟨hdrift, event, hevent, rfl, rfl⟩
  · rintro ⟨hdrift, event, hevent, htopic, hservice⟩
    refine ⟨event, hevent, Prod.ext hservice htopic, ?_⟩
    rw [hservice, htopic]
    exact hdrift

theorem holdsDrift_observing (h : Recording process deliveries trees) (registrations : List Fields)
    {batches : List (List Span)} (hperm : batches.flatten.Perm (handedAll trees)) (edge : Edge) :
    (observing registrations batches).HoldsDrift edge ↔ ∃ fingerprint,
      lastFlagged (flaggedIn (Catalog.empty.run (registrations.map (Post.mk .register))) Dict.empty
        (batches.flatten.map Span.event)) fingerprint = some edge := by
  rw [observing_eq h registrations hperm, List.map_flatten]
  apply holdsDrift_delivered (onlyRegistered_run registrations) _ (List.Perm.refl _)
  rw [← List.map_flatten]
  exact readable_events h hperm

theorem Recording.showsDrift (h : Recording process deliveries trees)
    (hdistinct : Distinct deliveries (handedAll trees)) (registrations : List Fields) {batches : List (List Span)}
    (hperm : batches.flatten.Perm (handedAll trees)) {edge : Edge}
    (hheld : (observing registrations batches).HoldsDrift edge) :
    ShowsDrift (observing registrations batches) deliveries edge := by
  have hrecords := (collected_observing h registrations hperm).records
  unfold ShowsDrift
  rw [holdsDrift_observing h registrations hperm] at hheld
  simp only [hrecords]
  generalize Catalog.empty.run (registrations.map (Post.mk .register)) = c at hheld ⊢
  obtain ⟨fingerprint, hlast⟩ := hheld
  rcases flaggedIn_cases (mem_of_lastFlagged hlast).1 with
    hserved | ⟨before, child, after, hsplit, parent, hbefore, hcalled, hdrift, rfl⟩
  · exact .inl ((h.served_iff hperm).mp hserved)
  · obtain ⟨hparent, -, -, -, hforeign⟩ := hcalled
    have hchild : child ∈ batches.flatten.map Span.event := hsplit ▸ List.mem_append_right _ List.mem_cons_self
    have hparentMem : parent ∈ batches.flatten.map Span.event := hsplit ▸ List.mem_append_left _ hbefore
    obtain ⟨childSpan, hchildSpan, rfl⟩ := List.mem_map.mp hchild
    obtain ⟨parentSpan, hparentSpan, rfl⟩ := List.mem_map.mp hparentMem
    have hchild' := hperm.subset hchildSpan
    refine .inr ⟨hdrift, childSpan.service, hforeign, (h.mem_edges hdistinct).mpr ?_⟩
    exact ⟨parentSpan, hperm.subset hparentSpan, childSpan, hchild', hparent, rfl,
      (h.recorded childSpan hchild').topic_eq.symm, rfl⟩

-- Every drift the collector holds is one the fleet showed, and every undeclared topic that a
-- service handled is held under its fingerprint.
theorem deliver_holdsDrift (hlower : ∀ text, Str.lower (Str.lower text) = Str.lower text) (hsound : process.Sound)
    {deliveries : List (Delivery ρ)} (htraceable : ∀ delivery ∈ deliveries, Traceable delivery)
    (start : ρ) (hdistinct : Distinct deliveries (deliver process deliveries ⟨{}, [], start⟩).handed)
    (registrations : List Fields) (batches : List (List Span))
    (hperm : batches.flatten.Perm (deliver process deliveries ⟨{}, [], start⟩).handed) (edge : Edge) :
    ((observing registrations batches).HoldsDrift edge → ShowsDrift (observing registrations batches) deliveries edge) ∧
      (consumerDrift ((observing registrations batches).serviceOrNew edge.1) edge.2 = true →
        (edge.1, .str edge.2) ∈ handledBy deliveries →
        ∃ held, driftKey held = driftKey edge ∧ (observing registrations batches).HoldsDrift held) := by
  obtain ⟨trees, hhanded, hrecording⟩ := deliver_recording hlower hsound htraceable ⟨{}, [], start⟩
  rw [List.nil_append] at hhanded
  rw [hhanded] at hdistinct hperm
  refine ⟨hrecording.showsDrift hdistinct registrations hperm, ?_⟩
  rw [(collected_observing hrecording registrations hperm).records]
  intro hdrift hhandled
  have hserved := (hrecording.served_iff hperm).mpr ⟨hdrift, hhandled⟩
  obtain ⟨fingerprint, hkey⟩ := driftKey_of_served (readable_events hrecording hperm) hserved
  obtain ⟨held, hlast⟩ := lastFlagged_isSome (servedEdge_mem_flaggedIn hserved Dict.empty) hkey
  exact ⟨held, (mem_of_lastFlagged hlast).2.trans hkey.symm,
    (holdsDrift_observing hrecording registrations hperm held).mpr ⟨fingerprint, hlast⟩⟩

omit [UnicodeData] in
theorem deliver_holdsDrift_order : letI := UnicodeData.ascii
    let catalog := observing [ordersBody, paymentsBody] [(deliver counting [(orderCall, [])] ⟨{}, [], 0⟩).handed]
    ∃ held, driftKey held = driftKey ("payments", "payment:take") ∧ catalog.HoldsDrift held := by
  let _ := UnicodeData.ascii
  exact (deliver_holdsDrift Transport.Aws.lower_lower_ascii sound_counting traceable_orderCall 0 distinct_orderCall
    [ordersBody, paymentsBody] [(deliver counting [(orderCall, [])] ⟨{}, [], 0⟩).handed] (.of_eq (List.append_nil _))
    ("payments", "payment:take")).2 (by decide +kernel) List.mem_cons_self

theorem Recording.ordered (h : Recording process deliveries trees) (hdistinct : Distinct deliveries (handedAll trees)) :
    (handedAll trees).Pairwise SpanTree.NotBelow := by
  apply SpanTree.handedAll_ordered trees h.connected hdistinct.nodup
  intro tree htree span hspan hbelow
  obtain ⟨delivery, hdelivery, hroot⟩ := h.roots tree htree
  exact hdistinct.foreign delivery hdelivery span hspan (hroot.symm.trans hbelow)

end Fleets

end Benzene.Mesh.Tracing
