import Benzene.Mesh.Graph

namespace Benzene.Mesh

open Benzene.Data

section DriftView

-- What a trace reads of a record: a side the registration left unknown is not read.
def Service.driftView (record : Service) : Service :=
  { name := record.name, registered := record.registered, known := record.known,
    consumed := if consumerKnown record then record.consumed else [],
    produced := if providerKnown record then record.produced else [] }

-- Catalogs that no trace can tell apart, with the same topics.
structure SameDrift (c c' : Catalog) : Prop where
  view : ∀ name, (c.serviceOrNew name).driftView = (c'.serviceOrNew name).driftView
  spanOwner : c.spanOwner = c'.spanOwner
  issues : c.issues = c'.issues
  topics : c.topics = c'.topics
  everConsumed : c.everConsumed = c'.everConsumed

namespace SameDrift

theorem withIssues {c c' : Catalog} (h : SameDrift c c') (issues : Dict Str Fields) :
    SameDrift { c with issues := issues } { c' with issues := issues } :=
  ⟨h.view, h.spanOwner, rfl, h.topics, h.everConsumed⟩

-- Both catalogs change one record, in a way that respects the view.
theorem setService {c c' : Catalog} (h : SameDrift c c') (name : Str) {record record' : Service}
    (hview : record.driftView = record'.driftView) :
    SameDrift (c.setService name record) (c'.setService name record') := by
  refine ⟨fun other => ?_, h.spanOwner, h.issues, h.topics, h.everConsumed⟩
  rw [Catalog.serviceOrNew_setService, Catalog.serviceOrNew_setService]
  split
  · exact hview
  · exact h.view other

theorem observe {c c' : Catalog} (h : SameDrift c c') (event : Event) :
    SameDrift (c.observe event) (c'.observe event) := by
  refine ⟨fun name => ?_, ?_, h.issues, ?_, h.everConsumed⟩
  · simp only [Catalog.serviceOrNew_observe, h.view]
  · simp only [Catalog.observe, h.spanOwner]
  · simp only [Catalog.observe, h.topics]

end SameDrift

theorem updateService_sameDrift (name : Str) {f : Service → Service}
    (hf : ∀ record, (f record).driftView = record.driftView) :
    Py.Simulates SameDrift (updateService name f) (updateService name f) :=
  .modify fun _ _ h => h.setService name (by rw [hf, hf, h.view])

variable [UnicodeData]

theorem flagConsumer_driftView (record : Service) (topic traceId : Str) :
    flagConsumer record.driftView topic traceId = flagConsumer record topic traceId := by
  unfold flagConsumer
  by_cases h : consumerKnown record
  · have hdeclared : record.driftView.consumed = record.consumed := if_pos h
    have hknown : consumerKnown record.driftView := h
    rw [if_pos h, if_pos hknown, hdeclared]
    rfl
  · have hknown : ¬consumerKnown record.driftView := h
    rw [if_neg h, if_neg hknown]

theorem flagProvider_driftView (record : Service) (topic traceId : Str) :
    flagProvider record.driftView topic traceId = flagProvider record topic traceId := by
  unfold flagProvider
  by_cases h : providerKnown record
  · have hdeclared : record.driftView.produced = record.produced := if_pos h
    have hknown : providerKnown record.driftView := h
    rw [if_pos h, if_pos hknown, hdeclared]
    rfl
  · have hknown : ¬providerKnown record.driftView := h
    rw [if_neg h, if_neg hknown]

theorem SameDrift.flagDrift {c c' : Catalog} (h : SameDrift c c') (event : Event) :
    c.flagDrift event = c'.flagDrift event := by
  have hconsumer (name topic traceId : Str) :
      flagConsumer (c.serviceOrNew name) topic traceId =
        flagConsumer (c'.serviceOrNew name) topic traceId := by
    rw [← flagConsumer_driftView, h.view, flagConsumer_driftView]
  have hprovider (name topic traceId : Str) :
      flagProvider (c.serviceOrNew name) topic traceId =
        flagProvider (c'.serviceOrNew name) topic traceId := by
    rw [← flagProvider_driftView, h.view, flagProvider_driftView]
  simp only [flagDrift_eq, hconsumer, hprovider, h.spanOwner]

theorem ingestEvent_sameDrift (raw : Json) :
    Py.Simulates SameDrift (ingestEvent raw) (ingestEvent raw) := by
  intro c c' h
  cases hraw : decodeEvent raw with
  | error error =>
      rw [ingestEvent_error hraw, ingestEvent_error hraw]
      exact ⟨rfl, h⟩
  | ok event =>
      have hobserve := h.observe event
      rw [ingestEvent_ok hraw, ingestEvent_ok hraw, hobserve.flagDrift, h.issues]
      exact ⟨rfl, hobserve.withIssues _⟩

theorem ingestTraces_sameDrift (body : Fields) :
    Py.Simulates SameDrift (ingestTraces body) (ingestTraces body) :=
  .bind (.lift _) fun _ => .bind (.mapEach fun raw _ => ingestEvent_sameDrift raw) fun _ => .pure _

theorem ingestHeartbeat_sameDrift (body : Fields) :
    Py.Simulates SameDrift (ingestHeartbeat body) (ingestHeartbeat body) :=
  .bind (.lift _) fun name => .bind (.modify fun _ _ h => h.setService name (h.view name)) fun _ =>
    .bind (.lift _) fun _ => .bind (.lift _) fun _ =>
      .bind (updateService_sameDrift name fun _ => rfl) fun _ => .pure _

theorem ingestIssues_sameDrift (body : Fields) :
    Py.Simulates SameDrift (ingestIssues body) (ingestIssues body) :=
  .bind (.lift _) fun name => .bind (updateService_sameDrift name fun _ => rfl) fun _ =>
    .bind (.lift _) fun _ =>
      .bind (fun c c' h => by
        rw [onIssues_apply, onIssues_apply, h.issues]
        exact ⟨rfl, h.withIssues _⟩) fun _ => .pure _

-- A registration replaces everything the view shows but the name.
theorem registering_driftView {record record' : Service} (h : record.driftView = record'.driftView)
    (body : Fields) : (record.registering body).driftView = (record'.registering body).driftView := by
  have hname := congrArg Service.name h
  have hview (r : Service) : (r.registering body).driftView =
      { (Service.registering { name := r.driftView.name } body).driftView with
        name := r.driftView.name } := rfl
  rw [hview, hview record', hname]

theorem ingestRegister_sameDrift (body : Fields) :
    Py.Simulates SameDrift (ingestRegister body) (ingestRegister body) :=
  .bind (.lift _) fun name => .bind (.modify fun c c' h => by
    have hset := h.setService name (registering_driftView (h.view name) body)
    exact ⟨hset.view, hset.spanOwner, hset.issues,
      by simp only [Catalog.register, Service.registering, h.topics],
      by simp only [Catalog.register, Service.registering, h.everConsumed]⟩) fun _ => .pure _

theorem ingest_sameDrift (post : Post) {c c' : Catalog} (h : SameDrift c c') :
    SameDrift (c.ingest post) (c'.ingest post) := by
  obtain ⟨feed, body⟩ := post
  cases feed with
  | register => exact (ingestRegister_sameDrift body c c' h).2
  | heartbeat => exact (ingestHeartbeat_sameDrift body c c' h).2
  | traces => exact (ingestTraces_sameDrift body c c' h).2
  | issues => exact (ingestIssues_sameDrift body c c' h).2

theorem run_sameDrift (posts : List Post) {c c' : Catalog} (h : SameDrift c c') :
    SameDrift (c.run posts) (c'.run posts) := by
  induction posts generalizing c c' with
  | nil => exact h
  | cons post posts ih => exact ih (ingest_sameDrift post h)

end DriftView

section Removal

def withoutMember (body : Fields) (member : Member) : Fields := Entries.erase member.key body

-- The other member that declares the same side of the graph, if there is one.
def Member.siblings : Member → List Member
  | .requests => []
  | .events => [.sends]
  | .sends => [.events]

theorem getField_withoutMember {body : Fields} {member : Member} {key : Str}
    (h : member.key ≠ key) : Json.getField (withoutMember body member) key = Json.getField body key := by
  simp [Json.getField, withoutMember, Entries.get?_erase, h]

theorem getField_withoutMember_self (body : Fields) (member : Member) :
    Json.getField (withoutMember body member) member.key = .null := by
  simp [Json.getField, withoutMember, Entries.get?_erase]

theorem Member.key_injective : Function.Injective Member.key := by
  intro a b h
  cases a <;> cases b <;> first | rfl | simp [Member.key] at h

variable [UnicodeData]

-- The member's entries add no topic to its side of the graph.
def SilentMember (body : Fields) (member : Member) : Prop :=
  ∀ topic ∈ specTopicIds body [member], topic ∈ specTopicIds body member.siblings

instance (body : Fields) (member : Member) : Decidable (SilentMember body member) := by
  unfold SilentMember
  infer_instance

theorem specEntries_withoutMember (body : Fields) (member other : Member) :
    specEntries (withoutMember body member) other =
      if other = member then [] else specEntries body other := by
  unfold specEntries
  split_ifs with h
  · rw [h, getField_withoutMember_self]
  · rw [getField_withoutMember fun hkey => h (Member.key_injective hkey).symm]

theorem mem_specTopicIds_withoutMember {body : Fields} {member : Member} {members : List Member}
    {topic : Str} :
    topic ∈ specTopicIds (withoutMember body member) members ↔
      ∃ other ∈ members, other ≠ member ∧
        ∃ entry ∈ specEntries body other, entryTopic entry = topic := by
  rw [mem_specTopicIds]
  refine exists_congr fun other => and_congr_right fun _ => ?_
  rw [specEntries_withoutMember]
  by_cases h : other = member <;> simp [h]

theorem specTopicIds_withoutMember {body : Fields} {member : Member} {members : List Member}
    (h : member ∉ members) :
    specTopicIds (withoutMember body member) members = specTopicIds body members := by
  unfold specTopicIds
  congr 1
  refine List.flatMap_congr fun other hother => ?_
  have hne : other ≠ member := by
    rintro rfl
    exact h hother
  simp only [specEntries_withoutMember, hne, ite_false]

theorem knownMembers_withoutMember {body : Fields} {member : Member}
    (h : member ∉ knownMembers body) :
    knownMembers (withoutMember body member) = knownMembers body := by
  have hdegraded : undetermined (withoutMember body member) = undetermined body := by
    unfold undetermined
    rw [getField_withoutMember (by cases member <;> simp [Member.key])]
  unfold knownMembers
  refine List.filter_congr fun other hall => ?_
  by_cases heq : other = member
  · subst heq
    simp only [knownMembers, List.mem_filter, hall, true_and, Bool.not_eq_true] at h
    rw [h, getField_withoutMember_self]
    rfl
  · rw [hdegraded, getField_withoutMember fun hkey => heq (Member.key_injective hkey).symm]

theorem require_withoutMember (body : Fields) (member : Member) :
    require (withoutMember body member) "service" = require body "service" := by
  unfold require
  rw [getField_withoutMember (by cases member <;> simp [Member.key])]

-- A member is silent exactly when its removal changes neither side.
theorem silentMember_iff {body : Fields} {member : Member} :
    SilentMember body member ↔ ∀ members ∈ [[Member.requests], [Member.events, Member.sends]],
      ∀ topic, topic ∈ specTopicIds body members ↔
        topic ∈ specTopicIds (withoutMember body member) members := by
  simp only [SilentMember, mem_specTopicIds_withoutMember]
  simp only [mem_specTopicIds]
  generalize hnames : (fun (member : Member) (topic : Str) =>
    ∃ entry ∈ specEntries body member, entryTopic entry = topic) = Names
  have hunfold (member : Member) (topic : Str) :
      (∃ entry ∈ specEntries body member, entryTopic entry = topic) ↔ Names member topic := by
    rw [← hnames]
  simp only [hunfold]
  cases member <;> simp [Member.siblings]

theorem mem_known_registering {record : Service} {body : Fields} {member : Member} :
    member.key ∈ (record.registering body).known ↔ member ∈ knownMembers body := by
  simp [Service.registering, Member.key_injective.eq_iff]

-- An unknown member does not show in the view of the record it registers.
theorem registering_withoutMember_driftView {body : Fields} {member : Member}
    (hunknown : member ∉ knownMembers body) (record : Service) :
    (record.registering (withoutMember body member)).driftView =
      (record.registering body).driftView := by
  have hknown : (record.registering (withoutMember body member)).known =
      (record.registering body).known := by
    simp only [Service.registering, knownMembers_withoutMember hunknown]
  have hconsumerKnown : consumerKnown (record.registering (withoutMember body member)) =
      consumerKnown (record.registering body) := by
    simp only [consumerKnown, hknown]
  have hproviderKnown : providerKnown (record.registering (withoutMember body member)) =
      providerKnown (record.registering body) := by
    simp only [providerKnown, hknown]
  simp only [Service.driftView, hknown, hconsumerKnown, hproviderKnown]
  congr 1
  · split_ifs with h
    · simp only [consumerKnown, decide_eq_true_eq, mem_known_registering] at h
      refine specTopicIds_withoutMember fun hmem => hunknown ?_
      rw [List.mem_singleton.mp hmem]
      exact h
    · rfl
  · split_ifs with h
    · simp only [providerKnown, Bool.and_eq_true, decide_eq_true_eq, mem_known_registering] at h
      refine specTopicIds_withoutMember fun hmem => hunknown ?_
      rcases List.mem_cons.mp hmem with rfl | hmem
      · exact h.1
      · rw [List.mem_singleton.mp hmem]
        exact h.2
    · rfl

-- Registering with or without a silent unknown member leaves the same catalog,
-- as far as traces and topics go.
theorem register_withoutMember {body : Fields} {member : Member} (c : Catalog) (name : Str)
    (hunknown : member ∉ knownMembers body) (hsilent : SilentMember body member) :
    SameDrift (c.register name body) (c.register name (withoutMember body member)) := by
  have hsides := silentMember_iff.mp hsilent
  have hconsumed := hsides [.requests] (by simp)
  have hproduced := hsides [.events, .sends] (by simp)
  refine ⟨fun other => ?_, rfl, rfl, ?_, ?_⟩
  · rw [serviceOrNew_register, serviceOrNew_register]
    split
    · exact (registering_withoutMember_driftView hunknown _).symm
    · rfl
  · ext topic
    simp [Catalog.register, Service.registering, hconsumed topic, hproduced topic]
  · ext topic
    simp [Catalog.register, Service.registering, hconsumed topic]

end Removal

section Runs

variable [UnicodeData]

-- The same registrations, but for one service.
def AgreeOff (name : Str) (c c' : Catalog) : Prop :=
  ∀ other, other ≠ name → (c.serviceOrNew other).registration = (c'.serviceOrNew other).registration

theorem ingest_agreeOff {name : Str} {c c' : Catalog} (h : AgreeOff name c c') (post : Post) :
    AgreeOff name (c.ingest post) (c'.ingest post) := by
  intro other hother
  cases hreg : post.registers with
  | none =>
      rw [(not_registers_apply hreg c).registration, (not_registers_apply hreg c').registration]
      exact h other hother
  | some registered =>
      rw [registers_apply hreg, registers_apply hreg, serviceOrNew_register, serviceOrNew_register]
      split
      · rename_i heq
        have hview (r : Service) : (r.registering post.body).registration =
            (r.registration.registering post.body).registration := rfl
        rw [hview, heq, h other hother, ← hview]
      · exact h other hother

theorem run_agreeOff {name : Str} {c c' : Catalog} (h : AgreeOff name c c') (posts : List Post) :
    AgreeOff name (c.run posts) (c'.run posts) := by
  induction posts generalizing c c' with
  | nil => exact h
  | cons post posts ih => exact ih (ingest_agreeOff h post)

-- Until it registers again, a service keeps its registration.
theorem run_registration {name : Str} {posts : List Post}
    (h : ∀ post ∈ posts, post.registers ≠ some name) (c : Catalog) :
    ((c.run posts).serviceOrNew name).registration = (c.serviceOrNew name).registration := by
  induction posts generalizing c with
  | nil => rfl
  | cons post posts ih =>
      have hpost := h post List.mem_cons_self
      refine (ih (fun other hm => h other (List.mem_cons_of_mem _ hm)) (c.ingest post)).trans ?_
      cases hreg : post.registers with
      | none => exact (not_registers_apply hreg c).registration name
      | some other =>
          rw [registers_apply hreg, serviceOrNew_register, if_neg]
          rintro rfl
          exact hpost hreg

theorem run_consumed {name : Str} {posts : List Post}
    (h : ∀ post ∈ posts, post.registers ≠ some name) (c : Catalog) (body : Fields) :
    (((c.register name body).run posts).serviceOrNew name).consumed =
      specTopicIds body [.requests] := by
  have hkept := congrArg Service.consumed (run_registration h (c.register name body))
  rw [serviceOrNew_register, if_pos rfl] at hkept
  exact hkept

theorem run_produced {name : Str} {posts : List Post}
    (h : ∀ post ∈ posts, post.registers ≠ some name) (c : Catalog) (body : Fields) :
    (((c.register name body).run posts).serviceOrNew name).produced =
      specTopicIds body [.events, .sends] := by
  have hkept := congrArg Service.produced (run_registration h (c.register name body))
  rw [serviceOrNew_register, if_pos rfl] at hkept
  exact hkept

-- A run whose last registration of `name` is that of `body`, and the same run
-- with the member taken out of that body.
theorem run_withoutMember_graph (before after : List Post) (body : Fields) (member : Member)
    (name : Str) (hname : require body "service" = .ok name)
    (hunknown : member ∉ knownMembers body)
    (hlast : ∀ post ∈ after, post.registers ≠ some name) :
    (Collector.empty.run (before ++ ⟨.register, body⟩ :: after)).catalog.graph =
        (Collector.empty.run
          (before ++ ⟨.register, withoutMember body member⟩ :: after)).catalog.graph ↔
      SilentMember body member := by
  rw [Collector.run_catalog, Collector.run_catalog]
  simp only [Catalog.run, List.foldl_append, List.foldl_cons]
  change (((Catalog.empty.run before).ingest _).run after).graph =
    (((Catalog.empty.run before).ingest _).run after).graph ↔ _
  have hname' : require (withoutMember body member) "service" = .ok name := by
    rw [require_withoutMember, hname]
  have hregisters : (Post.mk .register body).registers = some name := by
    simp [Post.registers, hname, Except.toOption]
  have hregisters' : (Post.mk .register (withoutMember body member)).registers = some name := by
    simp [Post.registers, hname', Except.toOption]
  rw [registers_apply hregisters, registers_apply hregisters']
  generalize Catalog.empty.run before = c
  have hoff : AgreeOff name (c.register name body)
      (c.register name (withoutMember body member)) := by
    intro other hother
    rw [serviceOrNew_register, serviceOrNew_register, if_neg hother.symm, if_neg hother.symm]
  have hoffRun := run_agreeOff hoff after
  rw [graph_eq_iff, silentMember_iff]
  constructor
  · rintro ⟨hconsumed, hproduced, -, -⟩ members hmembers topic
    have hc := hconsumed name topic
    have hp := hproduced name topic
    rw [run_consumed hlast, run_consumed hlast] at hc
    rw [run_produced hlast, run_produced hlast] at hp
    rcases List.mem_cons.mp hmembers with rfl | hmembers
    · exact hc
    · rw [List.mem_singleton.mp hmembers]
      exact hp
  · intro hsides
    have hsame := run_sameDrift after
      (register_withoutMember c name hunknown (silentMember_iff.mpr hsides))
    refine ⟨fun other topic => ?_, fun other topic => ?_, hsame.topics, hsame.everConsumed⟩
    · by_cases hother : other = name
      · rw [hother, run_consumed hlast, run_consumed hlast]
        exact hsides [.requests] (by simp) topic
      · have hconsumed := congrArg Service.consumed (hoffRun other hother)
        simp only [Service.registration] at hconsumed
        rw [hconsumed]
    · by_cases hother : other = name
      · rw [hother, run_produced hlast, run_produced hlast]
        exact hsides [.events, .sends] (by simp) topic
      · have hproduced := congrArg Service.produced (hoffRun other hother)
        simp only [Service.registration] at hproduced
        rw [hproduced]

end Runs

section Degraded

-- A degraded member that still lists an entry keeps its edge.
def degradedBody : Fields :=
  [Json.field "service" (.str "a"),
    Json.field "requests" (.arr [.obj [Json.field "topic" (.str "t")]]),
    Json.field "degraded" (.arr [.str "requests"])]

theorem degradedBody_keeps_edge :
    letI := UnicodeData.ascii
    Member.requests ∉ knownMembers degradedBody ∧
      (Collector.empty.run [⟨.register, degradedBody⟩]).catalog.consumersOf "t" = ["a"] ∧
      (Collector.empty.run [⟨.register, degradedBody⟩]).catalog.graph ≠
        (Collector.empty.run [⟨.register, withoutMember degradedBody .requests⟩]).catalog.graph := by
  refine ⟨by decide +kernel, by decide +kernel, fun h => ?_⟩
  have hconsumers := congrFun (congrArg Graph.consumers h) "t"
  revert hconsumers
  unfold Catalog.graph
  decide +kernel

theorem degradedBody_graph :
    letI := UnicodeData.ascii
    ((Collector.empty.run ([] ++ ⟨.register, degradedBody⟩ :: [])).catalog.graph =
        (Collector.empty.run
          ([] ++ ⟨.register, withoutMember degradedBody .requests⟩ :: [])).catalog.graph ↔
      SilentMember degradedBody .requests) ∧ ¬SilentMember degradedBody .requests := by
  let _ := UnicodeData.ascii
  exact ⟨run_withoutMember_graph [] [] degradedBody .requests "a" rfl (by decide +kernel) (by simp),
    by decide +kernel⟩

end Degraded

end Benzene.Mesh
