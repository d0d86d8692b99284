import Benzene.Mesh.Artifacts
import Benzene.Mesh.Instants

namespace Benzene.Mesh

open Benzene.Data Benzene.Results

section Reading

theorem elements_field {key : Str} {items : List Json} {answer : Fields}
    (h : Json.getField answer key = .arr items) : elements answer key = items.map asObject := by
  rw [elements, h]

theorem texts_field {key : Str} {names : List Str} {answer : Fields}
    (h : Json.getField answer key = strings names) : texts answer key = names := by
  rw [texts, h]
  show (names.map Json.str).map asStr = names
  rw [List.map_map]
  exact List.map_id names

end Reading

-- What the projection needs of the catalog: every service and every topic can
-- be asked for, and the activity on every declared edge can be told.
structure Catalog.Buildable (c : Catalog) : Prop where
  services : ∀ name ∈ c.services.keys, name ≠ []
  topics : ∀ topic ∈ c.topics, topic ≠ []
  callers : ∀ topic ∈ c.topics, c.providersOf topic ≠ [] → ∃ observed, c.observedCallers topic = .ok observed
  handlers : ∀ topic ∈ c.topics, c.consumersOf topic ≠ [] → ∃ observed, c.observedHandlers topic = .ok observed

variable [UnicodeData]

section Asking

theorem require_name {key name : Str} (h : name ≠ []) : require [Json.field key (.str name)] key = .ok name := by
  simp [require, Json.getField, Json.field, Json.truthy, Json.text, h]

theorem require_empty (key : Str) :
    ∃ error, require [Json.field key (.str [])] key = .error error := by
  simp [require, Json.getField, Json.field, Json.truthy]

theorem queryService_ok_iff {c : Catalog} {name : Str} :
    (∃ detail, c.queryService [Json.field "service" (.str name)] = .ok detail) ↔
      name ≠ [] ∧ name ∈ c.services.keys := by
  by_cases hname : name = []
  · subst hname
    obtain ⟨error, herror⟩ := require_empty "service"
    simp [Catalog.queryService, herror, bind, Except.bind]
  · rw [Dict.mem_keys_iff]
    unfold Catalog.queryService
    rw [require_name hname]
    cases hget : c.services.get? name with
    | none => simp [bind, Except.bind, hget]
    | some record => simp [bind, Except.bind, pure, Except.pure, hname, hget]

theorem queryTopic_ok_iff {c : Catalog} {topic : Str} :
    (∃ detail, c.queryTopic [Json.field "topic" (.str topic)] = .ok detail) ↔
      topic ≠ [] ∧ topic ∈ c.topics ∧
        (c.providersOf topic ≠ [] → ∃ observed, c.observedCallers topic = .ok observed) ∧
        (c.consumersOf topic ≠ [] → ∃ observed, c.observedHandlers topic = .ok observed) := by
  by_cases htopic : topic = []
  · subst htopic
    obtain ⟨error, herror⟩ := require_empty "topic"
    simp [Catalog.queryTopic, herror, bind, Except.bind]
  · have hrequire : require [Json.field "topic" (.str topic)] "topic" = .ok topic := require_name htopic
    constructor
    · rintro ⟨detail, hdetail⟩
      obtain ⟨hknown, providerActivity, consumerActivity, hproviders, hconsumers, -⟩ :=
        queryTopic_activity hrequire hdetail
      refine ⟨htopic, hknown, fun hne => ?_, fun hne => ?_⟩
      · obtain ⟨hempty, -⟩ | ⟨observed, hobserved, -⟩ := activityMember_ok hproviders
        · exact absurd hempty hne
        · exact ⟨observed, hobserved⟩
      · obtain ⟨hempty, -⟩ | ⟨observed, hobserved, -⟩ := activityMember_ok hconsumers
        · exact absurd hempty hne
        · exact ⟨observed, hobserved⟩
    · rintro ⟨-, hknown, hcallers, hhandlers⟩
      exact queryTopic_ok hrequire hknown (activityMember_ok_of hcallers) (activityMember_ok_of hhandlers)

end Asking

section Fleet

variable [Calendar] {c : Catalog} {fleet : Fields}

theorem fleet_services (hnamed : ∀ name, (c.serviceOrNew name).name = name) (h : c.queryFleet = .ok fleet) :
    (elements fleet "services").map (fun entry => member entry "service") = c.services.keys := by
  cases h
  rw [elements_field rfl, List.map_map, List.map_map, Dict.values, List.map_map, Dict.keys, Entries.keys]
  apply List.map_congr_left
  intro entry hentry
  exact service_name hnamed hentry

theorem fleet_topics (h : c.queryFleet = .ok fleet) :
    (elements fleet "topics").map (fun entry => member entry "topic") = c.topics.sort (· ≤ ·) := by
  cases h
  rw [elements_field rfl, List.map_map, List.map_map]
  exact List.map_id _

end Fleet

section Building

variable {c : Catalog} (fleet : Fields) (services : Dict Str Service) (generatedAt : Str)

theorem manifestEntry_ok_iff (urls : Dict Str (Str × Str)) {entry : Fields} :
    (∃ out, manifestEntry c urls entry = .ok out) ↔
      member entry "service" ≠ [] ∧ member entry "service" ∈ c.services.keys := by
  rw [← queryService_ok_iff, manifestEntry, Except.exists_bind_ok]
  simp [pure, Except.pure]

theorem manifest_ok_iff (urls : Dict Str (Str × Str)) :
    (∃ out, manifest c fleet urls generatedAt = .ok out) ↔
      ∀ entry ∈ elements fleet "services",
        member entry "service" ≠ [] ∧ member entry "service" ∈ c.services.keys := by
  have hmap : (∃ out, manifest c fleet urls generatedAt = .ok out) ↔
      ∃ entries, (elements fleet "services").mapM (manifestEntry c urls) = .ok entries := by
    rw [manifest, Except.exists_bind_ok]
    simp [pure, Except.pure]
  rw [hmap, Except.exists_mapM_ok]
  exact forall₂_congr fun entry _ => manifestEntry_ok_iff urls

-- A topic `query_topic` answers for.
def Asks (c : Catalog) (entry : Fields) : Prop :=
  ∃ detail, c.queryTopic [Json.field "topic" (.str (member entry "topic"))] = .ok detail

theorem addTopic_ok_iff {pairs : Dict (Str × Str) PairCounts} {entry : Fields} :
    (∃ out, addTopic c pairs entry = .ok out) ↔ Asks c entry := by
  rw [addTopic, Except.exists_bind_ok, Asks]
  simp [pure, Except.pure]

theorem topology_ok_iff [TrueDivision] :
    (∃ out, topology c fleet generatedAt = .ok out) ↔ ∀ entry ∈ elements fleet "topics", Asks c entry := by
  have hfold : (∃ out, topology c fleet generatedAt = .ok out) ↔
      ∃ pairs, (elements fleet "topics").foldlM (addTopic c) Dict.empty = .ok pairs := by
    rw [topology, Except.exists_bind_ok]
    simp [pure, Except.pure]
  have hround (pairs : Dict (Str × Str) PairCounts) (entry : Fields) :
      (∃ out, addTopic c pairs entry = .ok out) ↔ Asks c entry := addTopic_ok_iff
  rw [hfold, Except.exists_foldlM_ok hround]

theorem topicEntry_ok_iff {entry : Fields} :
    (∃ out, topicEntry c services entry = .ok out) ↔ Asks c entry := by
  rw [topicEntry, Except.exists_bind_ok, Asks]
  simp [pure, Except.pure]

theorem topics_ok (everConsumed : Finset Str) {fleet : Fields}
    (h : ∀ entry ∈ elements fleet "topics", Asks c entry) :
    ∃ out, topics c fleet services everConsumed generatedAt = .ok out := by
  rw [topics, Except.exists_bind_ok]
  have hactive : ∀ entry ∈ (elements fleet "topics").filter
      (fun entry => member entry "topic" ∉ removedTopics services everConsumed),
        ∃ out, topicEntry c services entry = .ok out := by
    intro entry hentry
    exact (topicEntry_ok_iff services).mpr (h entry (List.mem_filter.mp hentry).1)
  obtain ⟨entries, hok⟩ := Except.exists_mapM_ok.mpr hactive
  exact ⟨entries, hok, _, rfl⟩

theorem serviceDocument_ok_iff {name : Str} :
    (∃ out, serviceDocument c name services generatedAt = .ok out) ↔ name ≠ [] ∧ name ∈ c.services.keys := by
  rw [← queryService_ok_iff, serviceDocument, Except.exists_bind_ok]
  simp [pure, Except.pure]

theorem addChannel_ok (acc : Channels) {entry : Fields} (h : Asks c entry) :
    ∃ out, addChannel c services acc entry = .ok out := by
  obtain ⟨detail, hdetail⟩ := h
  unfold addChannel
  by_cases hreserved : isReservedTopic (member entry "topic") = true
  · exact ⟨acc, if_pos hreserved⟩
  · simp only [hreserved, hdetail, bind, Except.bind]
    exact ⟨_, rfl⟩

theorem asyncapi_ok {fleet : Fields} (h : ∀ entry ∈ elements fleet "topics", Asks c entry) :
    ∃ out, asyncapi c fleet services generatedAt = .ok out := by
  rw [asyncapi, Except.exists_bind_ok]
  have hfold (entries : List Fields) (hentries : ∀ entry ∈ entries, Asks c entry) (acc : Channels) :
      ∃ out, entries.foldlM (addChannel c services) acc = .ok out := by
    induction entries generalizing acc with
    | nil => exact ⟨acc, rfl⟩
    | cons entry rest ih =>
        obtain ⟨hentry, hrest⟩ := List.forall_mem_cons.mp hentries
        obtain ⟨acc', hacc⟩ := addChannel_ok services acc hentry
        obtain ⟨out, hout⟩ := ih hrest acc'
        exact ⟨out, by rw [List.foldlM_cons, hacc]; exact hout⟩
  obtain ⟨acc, hacc⟩ := hfold _ h {}
  exact ⟨acc, hacc, _, rfl⟩

end Building

section Asked

variable [Calendar] {c : Catalog}

theorem services_asked_iff {fleet : Fields} (hnamed : ∀ name, (c.serviceOrNew name).name = name)
    (hfleet : c.queryFleet = .ok fleet) :
    (∀ entry ∈ elements fleet "services", member entry "service" ≠ [] ∧
        member entry "service" ∈ c.services.keys) ↔ ∀ name ∈ c.services.keys, name ≠ [] := by
  rw [← fleet_services hnamed hfleet, List.forall_mem_map]
  constructor
  · intro h entry hentry
    exact (h entry hentry).1
  · intro h entry hentry
    exact ⟨h entry hentry, List.mem_map_of_mem hentry⟩

theorem topics_asked_iff {fleet : Fields} (hfleet : c.queryFleet = .ok fleet) :
    (∀ entry ∈ elements fleet "topics", Asks c entry) ↔
      ∀ topic ∈ c.topics, ∃ detail, c.queryTopic [Json.field "topic" (.str topic)] = .ok detail := by
  have hsort : (∀ topic ∈ c.topics, ∃ detail, c.queryTopic [Json.field "topic" (.str topic)] = .ok detail) ↔
      ∀ topic ∈ c.topics.sort (· ≤ ·),
        ∃ detail, c.queryTopic [Json.field "topic" (.str topic)] = .ok detail := by
    simp only [Finset.mem_sort]
  rw [hsort, ← fleet_topics hfleet, List.forall_mem_map]
  rfl

end Asked

section Artifacts

variable [Calendar] [TrueDivision] {c : Catalog} {sources : List ServiceEndpoint} {generatedAt : Str}

-- The documents that a projection puts together.
structure Projects (c : Catalog) (fleet : Fields) (sources : List ServiceEndpoint) (generatedAt : Str)
    (artifacts : Artifacts) : Prop where
  manifest : manifest c fleet (endpoints sources) generatedAt = .ok artifacts.manifest
  topology : topology c fleet generatedAt = .ok artifacts.topology
  topics : topics c fleet c.snapshotServices c.everConsumed generatedAt = .ok artifacts.topics
  services : ∃ documents,
    ((elements fleet "services").map fun entry => member entry "service").mapM
        (fun name => do return (name, ← serviceDocument c name c.snapshotServices generatedAt)) = .ok documents ∧
      artifacts.services = Dict.ofEntries documents
  usage : artifacts.usage = usage c.events generatedAt
  asyncapi : asyncapi c fleet c.snapshotServices generatedAt = .ok artifacts.asyncapi
  annotations : artifacts.annotations = annotations generatedAt

theorem buildArtifacts_eq_ok {artifacts : Artifacts} :
    buildArtifacts c sources generatedAt = .ok artifacts ↔
      ∃ fleet, c.queryFleet = .ok fleet ∧ Projects c fleet sources generatedAt artifacts := by
  constructor
  · intro h
    obtain ⟨fleet, hfleet, h⟩ := Except.bind_eq_ok.mp h
    obtain ⟨manifest, hmanifest, h⟩ := Except.bind_eq_ok.mp h
    obtain ⟨topology, htopology, h⟩ := Except.bind_eq_ok.mp h
    obtain ⟨topics, htopics, h⟩ := Except.bind_eq_ok.mp h
    obtain ⟨documents, hdocuments, h⟩ := Except.bind_eq_ok.mp h
    obtain ⟨asyncapi, hasyncapi, h⟩ := Except.bind_eq_ok.mp h
    cases h
    exact ⟨fleet, hfleet, hmanifest, htopology, htopics, ⟨documents, hdocuments, rfl⟩, rfl, hasyncapi, rfl⟩
  · rintro ⟨fleet, hfleet, hmanifest, htopology, htopics, ⟨documents, hdocuments, hservices⟩, husage, hasyncapi,
      hannotations⟩
    obtain ⟨manifest, topology, topics, services, usage, asyncapi, annotations⟩ := artifacts
    cases hservices
    cases husage
    cases hannotations
    simp only [buildArtifacts, hfleet, hmanifest, htopology, htopics, hasyncapi, bind, Except.bind] at hdocuments ⊢
    rw [hdocuments]
    rfl

-- The manifest asks for every service, the topology for every topic.
theorem buildable_iff {fleet : Fields} (hnamed : ∀ name, (c.serviceOrNew name).name = name)
    (hfleet : c.queryFleet = .ok fleet) (urls : Dict Str (Str × Str)) (generatedAt : Str) :
    c.Buildable ↔ (∃ out, manifest c fleet urls generatedAt = .ok out) ∧
      ∃ out, topology c fleet generatedAt = .ok out := by
  rw [manifest_ok_iff, topology_ok_iff, services_asked_iff hnamed hfleet, topics_asked_iff hfleet]
  constructor
  · intro h
    exact ⟨h.services, fun topic htopic => queryTopic_ok_iff.mpr
      ⟨h.topics topic htopic, htopic, h.callers topic htopic, h.handlers topic htopic⟩⟩
  · rintro ⟨hservices, htopics⟩
    have hanswers (topic : Str) (htopic : topic ∈ c.topics) := queryTopic_ok_iff.mp (htopics topic htopic)
    exact ⟨hservices, fun topic htopic => (hanswers topic htopic).1,
      fun topic htopic => (hanswers topic htopic).2.2.1, fun topic htopic => (hanswers topic htopic).2.2.2⟩

-- When the artifacts can be built.
theorem buildArtifacts_ok_iff (hnamed : ∀ name, (c.serviceOrNew name).name = name) :
    (∃ artifacts, buildArtifacts c sources generatedAt = .ok artifacts) ↔ c.Buildable := by
  obtain ⟨fleet, hfleet⟩ : ∃ fleet, c.queryFleet = .ok fleet := ⟨_, rfl⟩
  rw [buildable_iff hnamed hfleet (endpoints sources) generatedAt]
  constructor
  · rintro ⟨artifacts, h⟩
    obtain ⟨fleet', hfleet', hprojects⟩ := buildArtifacts_eq_ok.mp h
    rw [hfleet] at hfleet'
    cases hfleet'
    exact ⟨⟨_, hprojects.manifest⟩, _, hprojects.topology⟩
  · rintro ⟨⟨manifest, hmanifest⟩, topology, htopology⟩
    have hnames := (services_asked_iff hnamed hfleet).mp ((manifest_ok_iff fleet generatedAt _).mp ⟨_, hmanifest⟩)
    have hentries := (topology_ok_iff fleet generatedAt).mp ⟨_, htopology⟩
    obtain ⟨topics, htopics⟩ := topics_ok c.snapshotServices generatedAt c.everConsumed hentries
    obtain ⟨asyncapi, hasyncapi⟩ := asyncapi_ok c.snapshotServices generatedAt hentries
    have hdocuments : ∀ name ∈ c.services.keys, ∃ out,
        (do return (name, ← serviceDocument c name c.snapshotServices generatedAt) :
          Except CollectorError (Str × Fields)) = .ok out := by
      intro name hname
      obtain ⟨document, hdocument⟩ := (serviceDocument_ok_iff c.snapshotServices generatedAt).mpr
        ⟨hnames name hname, hname⟩
      exact ⟨(name, document), by rw [hdocument]; rfl⟩
    rw [← fleet_services hnamed hfleet] at hdocuments
    obtain ⟨documents, hdocuments⟩ := Except.exists_mapM_ok.mpr hdocuments
    exact ⟨⟨manifest, topology, topics, Dict.ofEntries documents, _, asyncapi, _⟩,
      buildArtifacts_eq_ok.mpr ⟨fleet, hfleet, hmanifest, htopology, htopics, ⟨documents, hdocuments, rfl⟩, rfl,
        hasyncapi, rfl⟩⟩

-- Each catalogued service has its document.
theorem Projects.document {fleet : Fields} {artifacts : Artifacts}
    (hnamed : ∀ name, (c.serviceOrNew name).name = name) (hfleet : c.queryFleet = .ok fleet)
    (h : Projects c fleet sources generatedAt artifacts) :
    artifacts.services.keys = c.services.keys ∧ ∀ name document, artifacts.services.get? name = some document →
      serviceDocument c name c.snapshotServices generatedAt = .ok document := by
  obtain ⟨documents, hdocuments, hservices⟩ := h.services
  rw [fleet_services hnamed hfleet, Except.mapM_eq_ok] at hdocuments
  have hround : List.Forall₂ (fun name document => document.1 = name ∧
      serviceDocument c name c.snapshotServices generatedAt = .ok document.2) c.services.keys documents := by
    refine hdocuments.imp fun name document hdocument => ?_
    obtain ⟨value, hvalue, hpair⟩ := Except.bind_eq_ok.mp hdocument
    cases hpair
    exact ⟨rfl, hvalue⟩
  have hkeys : Entries.keys documents = c.services.keys := by
    refine List.forall₂_eq_eq_eq ▸ ?_
    exact List.forall₂_map_left_iff.mpr (hround.flip.imp fun _ _ hpair => hpair.1)
  have hentries : artifacts.services.entries = documents := by
    rw [hservices]
    exact Entries.update_nil_of_nodup (hkeys ▸ c.services.nodup)
  refine ⟨by rw [Dict.keys, hentries, hkeys], fun name document hget => ?_⟩
  have hmem := (Dict.mem_entries_iff _ _ _).mpr hget
  rw [hentries] at hmem
  obtain ⟨other, -, hother, hdocument⟩ := exists_of_mem_right hround hmem
  rw [← hother] at hdocument
  exact hdocument

end Artifacts

end Benzene.Mesh
