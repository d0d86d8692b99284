import Benzene.Mesh.Query

namespace Benzene.Mesh

open Benzene.Data

section Edges

-- What the queries show of the declared graph.
structure Graph where
  consumers : Str → List Str
  providers : Str → List Str
  topics : Finset Str
  everConsumed : Finset Str

def Catalog.graph (c : Catalog) : Graph :=
  ⟨c.consumersOf, c.providersOf, c.topics, c.everConsumed⟩

theorem graph_eq_iff {c c' : Catalog} :
    c.graph = c'.graph ↔
      (∀ name topic, topic ∈ (c.serviceOrNew name).consumed ↔
        topic ∈ (c'.serviceOrNew name).consumed) ∧
      (∀ name topic, topic ∈ (c.serviceOrNew name).produced ↔
        topic ∈ (c'.serviceOrNew name).produced) ∧
      c.topics = c'.topics ∧ c.everConsumed = c'.everConsumed := by
  simp only [Catalog.graph, Graph.mk.injEq, ← Catalog.mem_consumersOf, ← Catalog.mem_providersOf]
  refine and_congr ⟨fun h => by simp [h], fun h => ?_⟩
    (and_congr_left' ⟨fun h => by simp [h], fun h => ?_⟩)
  · funext topic
    exact Str.eq_of_strict (c.serviceNames_strict _) (c'.serviceNames_strict _) fun name => h name topic
  · funext topic
    exact Str.eq_of_strict (c.serviceNames_strict _) (c'.serviceNames_strict _) fun name => h name topic

end Edges

section Frame

-- What a registration decides of a record.
def Service.registration (record : Service) : Service :=
  { record with instances := Dict.empty, reportedIssues := false }

-- The later catalog has the registrations of the earlier one, and at least its topics.
structure KeepsRegistrations (c c' : Catalog) : Prop where
  registration : ∀ name, (c'.serviceOrNew name).registration = (c.serviceOrNew name).registration
  everConsumed : c'.everConsumed = c.everConsumed
  topics : c.topics ⊆ c'.topics

namespace KeepsRegistrations

theorem refl (c : Catalog) : KeepsRegistrations c c :=
  ⟨fun _ => rfl, rfl, Finset.Subset.refl _⟩

theorem trans {a b c : Catalog} (hab : KeepsRegistrations a b) (hbc : KeepsRegistrations b c) :
    KeepsRegistrations a c :=
  ⟨fun name => (hbc.registration name).trans (hab.registration name),
    hbc.everConsumed.trans hab.everConsumed, hab.topics.trans hbc.topics⟩

theorem withIssues {c c' : Catalog} (h : KeepsRegistrations c c') (issues : Dict Str Fields) :
    KeepsRegistrations c { c' with issues := issues } :=
  ⟨h.registration, h.everConsumed, h.topics⟩

-- Only the part a registration does not decide is changed.
theorem setService (c : Catalog) (name : Str) {record : Service}
    (h : record.registration = (c.serviceOrNew name).registration) :
    KeepsRegistrations c (c.setService name record) := by
  refine ⟨fun other => ?_, rfl, Finset.Subset.refl _⟩
  rw [Catalog.serviceOrNew_setService]
  split
  · rename_i heq
    rw [← heq, h]
  · rfl

theorem observe (c : Catalog) (event : Event) : KeepsRegistrations c (c.observe event) :=
  ⟨fun name => by rw [Catalog.serviceOrNew_observe], rfl, Finset.subset_insert _ _⟩

end KeepsRegistrations

-- A declared edge is never on a topic the catalog does not have.
def Catalogued (c : Catalog) : Prop :=
  ∀ name, ∀ topic ∈ (c.serviceOrNew name).consumed ++ (c.serviceOrNew name).produced, topic ∈ c.topics

theorem catalogued_empty : Catalogued Catalog.empty := by
  simp [Catalogued, Catalog.serviceOrNew, Catalog.empty]

variable [UnicodeData]

theorem ingestEvent_keepsRegistrations (c : Catalog) (raw : Json) :
    Py.Preserves (KeepsRegistrations c) (ingestEvent raw) := by
  intro c' hc
  cases h : decodeEvent raw with
  | error error =>
      rw [ingestEvent_error h]
      exact hc
  | ok event =>
      rw [ingestEvent_ok h]
      exact (hc.trans (.observe c' event)).withIssues _

theorem ingestTraces_keepsRegistrations (c : Catalog) (body : Fields) :
    Py.Preserves (KeepsRegistrations c) (ingestTraces body) :=
  .bind (.lift _) fun _ =>
    .bind (.mapEach fun raw _ => ingestEvent_keepsRegistrations c raw) fun _ => .pure _

theorem ingestHeartbeat_keepsRegistrations (c : Catalog) (body : Fields) :
    Py.Preserves (KeepsRegistrations c) (ingestHeartbeat body) :=
  .bind (.lift _) fun name =>
    .bind (.modify fun c' hc => hc.trans (.setService c' name rfl)) fun _ =>
      .bind (.lift _) fun _ => .bind (.lift _) fun _ =>
        .bind (.modify fun c' hc => hc.trans (.setService c' name rfl)) fun _ => .pure _

theorem ingestIssues_keepsRegistrations (c : Catalog) (body : Fields) :
    Py.Preserves (KeepsRegistrations c) (ingestIssues body) :=
  .bind (.lift _) fun name =>
    .bind (.modify fun c' hc => hc.trans (.setService c' name rfl)) fun _ =>
      .bind (.lift _) fun _ => .bind (fun _ hc => hc.withIssues _) fun _ => .pure _

theorem ingest_keepsRegistrations {post : Post} (h : post.feed ≠ .register) (c : Catalog) :
    KeepsRegistrations c (c.ingest post) := by
  obtain ⟨feed, body⟩ := post
  cases feed with
  | register => exact absurd rfl h
  | heartbeat => exact ingestHeartbeat_keepsRegistrations c body c (.refl c)
  | traces => exact ingestTraces_keepsRegistrations c body c (.refl c)
  | issues => exact ingestIssues_keepsRegistrations c body c (.refl c)

end Frame

section Registrations

variable [UnicodeData]

-- The service a post registers, if it is an accepted registration.
def Post.registers (post : Post) : Option Str :=
  match post.feed with
  | .register => (require post.body "service").toOption
  | _ => none

def noteRegistration (latest : Dict Str Fields) (post : Post) : Dict Str Fields :=
  match post.registers with
  | some name => latest.set name post.body
  | none => latest

-- Every service's most recent accepted registration.
def latestRegistrations (posts : List Post) : Dict Str Fields :=
  posts.foldl noteRegistration Dict.empty

-- The services whose document names `topic` in one of `members`, sorted.
def declaring (latest : Dict Str Fields) (members : List Member) (topic : Str) : List Str :=
  Str.sorted ((latest.entries.filter fun entry => topic ∈ specTopicIds entry.2 members).map Prod.fst)

theorem mem_declaring {latest : Dict Str Fields} {members : List Member} {topic name : Str} :
    name ∈ declaring latest members topic ↔
      ∃ body, latest.get? name = some body ∧ topic ∈ specTopicIds body members := by
  simp only [declaring, Str.mem_sorted, List.mem_map, List.mem_filter, decide_eq_true_eq]
  constructor
  · rintro ⟨⟨_, body⟩, ⟨hmem, htopic⟩, rfl⟩
    exact ⟨body, (Dict.mem_entries_iff _ _ _).mp hmem, htopic⟩
  · rintro ⟨body, hget, htopic⟩
    exact ⟨(name, body), ⟨(Dict.mem_entries_iff _ _ _).mpr hget, htopic⟩, rfl⟩

-- A record says what the service's last registration declares, and nothing
-- before the first one.
structure Declares (latest : Option Fields) (record : Service) : Prop where
  registered : record.registered = latest.isSome
  consumed : record.consumed = latest.elim [] (specTopicIds · [.requests])
  produced : record.produced = latest.elim [] (specTopicIds · [.events, .sends])

theorem Declares.of_registration {latest : Option Fields} {record record' : Service}
    (h : Declares latest record) (heq : record'.registration = record.registration) :
    Declares latest record' where
  registered := (congrArg Service.registered heq).trans h.registered
  consumed := (congrArg Service.consumed heq).trans h.consumed
  produced := (congrArg Service.produced heq).trans h.produced

theorem registers_apply {post : Post} {name : Str} (h : post.registers = some name)
    (c : Catalog) : c.ingest post = c.register name post.body := by
  obtain ⟨feed, body⟩ := post
  cases feed with
  | register =>
      simp only [Post.registers] at h
      simp only [Catalog.ingest, Feed.ingest, ingestRegister_apply]
      cases hr : require body "service" with
      | ok other =>
          rw [hr] at h
          cases h
          rfl
      | error error =>
          rw [hr] at h
          cases h
  | heartbeat | traces | issues => cases h

theorem not_registers_apply {post : Post} (h : post.registers = none) (c : Catalog) :
    KeepsRegistrations c (c.ingest post) := by
  by_cases hfeed : post.feed = .register
  · obtain ⟨feed, body⟩ := post
    cases hfeed
    simp only [Post.registers] at h
    simp only [Catalog.ingest, Feed.ingest, ingestRegister_apply]
    cases hr : require body "service" with
    | ok other =>
        rw [hr] at h
        cases h
    | error error => exact .refl c
  · exact ingest_keepsRegistrations hfeed c

-- The invariant of a run: every record declares its service's last registration.
def Tracks (latest : Dict Str Fields) (c : Catalog) : Prop :=
  ∀ name, Declares (latest.get? name) (c.serviceOrNew name)

theorem tracks_empty : Tracks Dict.empty Catalog.empty :=
  fun _ => ⟨rfl, rfl, rfl⟩

theorem tracks_ingest {latest : Dict Str Fields} {c : Catalog} (h : Tracks latest c) (post : Post) :
    Tracks (noteRegistration latest post) (c.ingest post) := by
  intro name
  unfold noteRegistration
  cases hreg : post.registers with
  | none => exact (h name).of_registration ((not_registers_apply hreg c).registration name)
  | some other =>
      rw [registers_apply hreg, serviceOrNew_register]
      dsimp only
      rw [Dict.get?_set]
      split
      · exact ⟨rfl, rfl, rfl⟩
      · exact h name

theorem tracks_run {latest : Dict Str Fields} {c : Catalog} (h : Tracks latest c)
    (posts : List Post) : Tracks (posts.foldl noteRegistration latest) (c.run posts) := by
  induction posts generalizing latest c with
  | nil => exact h
  | cons post posts ih => exact ih (tracks_ingest h post)

theorem declaring_strict (latest : Dict Str Fields) (members : List Member) (topic : Str) :
    (declaring latest members topic).Pairwise (· < ·) :=
  Str.sorted_strict (latest.nodup.sublist (List.filter_sublist.map _))

theorem consumersOf_eq_declaring {latest : Dict Str Fields} {c : Catalog} (h : Tracks latest c)
    (topic : Str) : c.consumersOf topic = declaring latest [.requests] topic := by
  refine Str.eq_of_strict (c.serviceNames_strict _) (declaring_strict _ _ _) fun name => ?_
  rw [Catalog.mem_consumersOf, mem_declaring, (h name).consumed]
  cases latest.get? name <;> simp

theorem providersOf_eq_declaring {latest : Dict Str Fields} {c : Catalog} (h : Tracks latest c)
    (topic : Str) : c.providersOf topic = declaring latest [.events, .sends] topic := by
  refine Str.eq_of_strict (c.serviceNames_strict _) (declaring_strict _ _ _) fun name => ?_
  rw [Catalog.mem_providersOf, mem_declaring, (h name).produced]
  cases latest.get? name <;> simp

theorem catalogued_ingest {c : Catalog} (h : Catalogued c) (post : Post) :
    Catalogued (c.ingest post) := by
  intro name topic htopic
  cases hreg : post.registers with
  | none =>
      have hkeeps := not_registers_apply hreg c
      have hconsumed := congrArg Service.consumed (hkeeps.registration name)
      have hproduced := congrArg Service.produced (hkeeps.registration name)
      simp only [Service.registration] at hconsumed hproduced
      rw [hconsumed, hproduced] at htopic
      exact hkeeps.topics (h name topic htopic)
  | some other =>
      rw [registers_apply hreg] at htopic ⊢
      rw [serviceOrNew_register] at htopic
      simp only [Catalog.register, Finset.mem_union, List.mem_toFinset]
      split at htopic
      · rw [List.mem_append] at htopic
        tauto
      · exact Or.inl (Or.inl (h name topic htopic))

theorem catalogued_run {c : Catalog} (h : Catalogued c) (posts : List Post) :
    Catalogued (c.run posts) := by
  induction posts generalizing c with
  | nil => exact h
  | cons post posts ih => exact ih (catalogued_ingest h post)

-- Every service is recorded under its own name.
theorem name_ingest {c : Catalog} (h : ∀ name, (c.serviceOrNew name).name = name) (post : Post)
    (name : Str) : ((c.ingest post).serviceOrNew name).name = name := by
  cases hreg : post.registers with
  | none =>
      have hname := congrArg Service.name ((not_registers_apply hreg c).registration name)
      exact hname.trans (h name)
  | some other =>
      rw [registers_apply hreg, serviceOrNew_register]
      split
      · rename_i heq
        rw [← heq]
        exact h other
      · exact h name

theorem name_run {c : Catalog} (h : ∀ name, (c.serviceOrNew name).name = name) (posts : List Post)
    (name : Str) : ((c.run posts).serviceOrNew name).name = name := by
  induction posts generalizing c with
  | nil => exact h name
  | cons post posts ih => exact ih (name_ingest h post)

-- What `query_topic` answers for a topic it knows names the edges.
theorem queryTopic_edges {c : Catalog} {body answer : Fields} {topic : Str}
    (hbody : require body "topic" = .ok topic) (h : c.queryTopic body = .ok answer) :
    Json.getField answer "providers" = strings (c.providersOf topic) ∧
      Json.getField answer "consumers" = strings (c.consumersOf topic) := by
  unfold Catalog.queryTopic at h
  rw [hbody] at h
  simp only [bind, Except.bind] at h
  split at h
  · cases h
  · cases hp : activityMember "providerActivity" (c.observedCallers topic) (c.providersOf topic) with
    | error error =>
        rw [hp] at h
        cases h
    | ok providerActivity =>
        rw [hp] at h
        cases hc : activityMember "consumerActivity" (c.observedHandlers topic)
          (c.consumersOf topic) with
        | error error =>
            rw [hc] at h
            cases h
        | ok consumerActivity =>
            rw [hc] at h
            cases h
            simp [Json.getField, Json.field]

-- The graph is a function of the latest registrations: whatever else was posted,
-- in whatever order, the edges of a topic are the ones those documents declare.
theorem run_edges (posts : List Post) (topic : Str) :
    let c := (Collector.empty.run posts).catalog
    let consumers := declaring (latestRegistrations posts) [.requests] topic
    let providers := declaring (latestRegistrations posts) [.events, .sends] topic
    c.consumersOf topic = consumers ∧ c.providersOf topic = providers ∧
      consumers.Pairwise (· < ·) ∧ providers.Pairwise (· < ·) ∧
      (isReservedTopic topic = true ∨ topic ∉ c.topics → consumers = [] ∧ providers = []) ∧
      ∀ body answer, require body "topic" = .ok topic → c.queryTopic body = .ok answer →
        Json.getField answer "providers" = strings providers ∧
          Json.getField answer "consumers" = strings consumers := by
  intro c consumers providers
  have hc : c = Catalog.empty.run posts := Collector.run_catalog _ posts
  have htracks : Tracks (latestRegistrations posts) c := hc ▸ tracks_run tracks_empty posts
  have hcatalogued : Catalogued c := hc ▸ catalogued_run catalogued_empty posts
  have hconsumers : c.consumersOf topic = consumers := consumersOf_eq_declaring htracks topic
  have hproviders : c.providersOf topic = providers := providersOf_eq_declaring htracks topic
  refine ⟨hconsumers, hproviders, declaring_strict _ _ _, declaring_strict _ _ _, ?_, ?_⟩
  · rintro (hreserved | hunknown)
    · have hempty (members : List Member) :
          declaring (latestRegistrations posts) members topic = [] := by
        refine List.eq_nil_iff_forall_not_mem.mpr fun name hname => ?_
        obtain ⟨body, -, htopic⟩ := mem_declaring.mp hname
        simp [not_reserved_of_mem_specTopicIds htopic] at hreserved
      exact ⟨hempty _, hempty _⟩
    · constructor <;> refine List.eq_nil_iff_forall_not_mem.mpr fun name hname => hunknown ?_
      · rw [← hconsumers, Catalog.mem_consumersOf] at hname
        exact hcatalogued name topic (List.mem_append_left _ hname)
      · rw [← hproviders, Catalog.mem_providersOf] at hname
        exact hcatalogued name topic (List.mem_append_right _ hname)
  · intro body answer hbody hanswer
    have hedges := queryTopic_edges hbody hanswer
    rwa [hconsumers, hproviders] at hedges

end Registrations

end Benzene.Mesh
