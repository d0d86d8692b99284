import Benzene.Mesh.Buildable
import Benzene.Mesh.Renaming
import Benzene.Mesh.Restore

namespace Benzene.Mesh

open Benzene.Data Benzene.Data.Json Benzene.Results

section Remembering

-- A record without what a registration remembers of the one before it.
def Service.current (record : Service) : Service :=
  { record with previousRegistrationHash := none, previousTopicSpecs := Dict.empty }

def currentServices (services : Dict Str Service) : List (Str × Service) :=
  Entries.mapValues Service.current services.entries

theorem currentServices_set (services : Dict Str Service) (name : Str) (record : Service) :
    currentServices (services.set name record) = Entries.set name record.current (currentServices services) :=
  (Entries.set_mapValues Service.current name record services.entries).symm

theorem get?_current (services : Dict Str Service) (name : Str) :
    (services.get? name).map Service.current = Entries.get? name (currentServices services) :=
  (Entries.get?_mapValues Service.current name services.entries).symm

-- Two catalogs that differ in nothing else.
structure SameCurrent (c c' : Catalog) : Prop where
  services : currentServices c'.services = currentServices c.services
  topics : c'.topics = c.topics
  everConsumed : c'.everConsumed = c.everConsumed
  events : c'.events = c.events
  spanOwner : c'.spanOwner = c.spanOwner
  issues : c'.issues = c.issues

theorem SameCurrent.refl (c : Catalog) : SameCurrent c c := ⟨rfl, rfl, rfl, rfl, rfl, rfl⟩

-- What does not look at a record's memory reads the same of both.
theorem map_current {β : Type} {services services' : Dict Str Service}
    (h : currentServices services' = currentServices services) (f : Str × Service → β)
    (hf : ∀ name record, f (name, record.current) = f (name, record)) :
    services'.entries.map f = services.entries.map f := by
  have hread (services : Dict Str Service) : services.entries.map f = (currentServices services).map f := by
    rw [currentServices, Entries.mapValues, List.map_map]
    apply List.map_congr_left
    intro entry _
    exact (hf entry.1 entry.2).symm
  rw [hread, hread, h]

theorem serviceNames_current {c c' : Catalog} (h : SameCurrent c c') (p : Service → Bool)
    (hp : ∀ record : Service, p record.current = p record) : c'.serviceNames p = c.serviceNames p := by
  have hread (c : Catalog) : (c.services.entries.filter fun entry => p entry.2).map Prod.fst =
      ((currentServices c.services).filter fun entry => p entry.2).map Prod.fst := by
    rw [currentServices, Entries.mapValues, List.filter_map, List.map_map]
    have hfilter : ((fun entry => p entry.2) ∘ fun entry : Str × Service => (entry.1, entry.2.current)) =
        fun entry => p entry.2 := by
      funext entry
      exact hp entry.2
    rw [hfilter]
    rfl
  rw [Catalog.serviceNames, Catalog.serviceNames, hread, hread, h.services]

theorem missingFeeds_current {c c' : Catalog} (h : SameCurrent c c') (record : Service) :
    c'.missingFeeds record.current = c.missingFeeds record := by
  rw [Catalog.missingFeeds, Catalog.missingFeeds, Catalog.invocationsBy, Catalog.invocationsBy, h.events]
  rfl

theorem missingFeeds_same {c c' : Catalog} (h : SameCurrent c c') (record : Service) :
    c'.missingFeeds record = c.missingFeeds record := by
  rw [Catalog.missingFeeds, Catalog.missingFeeds, Catalog.invocationsBy, Catalog.invocationsBy, h.events]

theorem fleetServiceEntry_current {c c' : Catalog} (h : SameCurrent c c') (record : Service) :
    c'.fleetServiceEntry record.current = c.fleetServiceEntry record := by
  rw [Catalog.fleetServiceEntry, Catalog.fleetServiceEntry, missingFeeds_current h]
  rfl

-- A record that is there in the one is there in the other.
theorem get?_cases {services services' : Dict Str Service}
    (h : currentServices services' = currentServices services) (name : Str) :
    (services.get? name = none ∧ services'.get? name = none) ∨
      ∃ record record', services.get? name = some record ∧ services'.get? name = some record' ∧
        record'.current = record.current := by
  have hget : (services'.get? name).map Service.current = (services.get? name).map Service.current := by
    rw [get?_current, get?_current, h]
  cases hold : services.get? name with
  | none =>
      rw [hold, Option.map_none, Option.map_eq_none_iff] at hget
      exact Or.inl ⟨rfl, hget⟩
  | some record =>
      rw [hold, Option.map_some, Option.map_eq_some_iff] at hget
      obtain ⟨record', hnew, hrecord⟩ := hget
      exact Or.inr ⟨record, record', rfl, hnew, hrecord⟩

variable [UnicodeData]

theorem queryFleet_current [Calendar] {c c' : Catalog} (h : SameCurrent c c') : c'.queryFleet = c.queryFleet := by
  have hentries : c'.services.values.map c'.fleetServiceEntry = c.services.values.map c.fleetServiceEntry := by
    have hentry : c'.fleetServiceEntry = c.fleetServiceEntry := by
      funext record
      rw [Catalog.fleetServiceEntry, Catalog.fleetServiceEntry, missingFeeds_same h]
    rw [hentry, Dict.values, Dict.values, List.map_map, List.map_map]
    exact map_current h.services _ fun _ record => fleetServiceEntry_current (.refl c) record
  have hconsumers (topic : Str) : c'.consumersOf topic = c.consumersOf topic :=
    serviceNames_current h _ fun _ => rfl
  have hsummaries : c'.traceSummaries = c.traceSummaries := by
    rw [Catalog.traceSummaries, Catalog.traceSummaries, h.events]
  simp only [Catalog.queryFleet, hentries, hconsumers, hsummaries, Catalog.invocationsOn, h.events, h.topics, h.issues]

theorem queryService_current {c c' : Catalog} (h : SameCurrent c c') (body : Fields) :
    c'.queryService body = c.queryService body := by
  unfold Catalog.queryService
  cases require body "service" with
  | error error => rfl
  | ok name =>
      simp only [bind, Except.bind]
      obtain ⟨hold, hnew⟩ | ⟨record, record', hold, hnew, hrecord⟩ := get?_cases h.services name
      · rw [hold, hnew]
      · rw [hold, hnew]
        have hmissing : c'.missingFeeds record' = c.missingFeeds record := by
          rw [← missingFeeds_current (.refl c'), hrecord, missingFeeds_same h, missingFeeds_current (.refl c)]
        have hinstances : record'.instances = record.instances := by
          have hcurrent := congrArg Service.instances hrecord
          exact hcurrent
        have hhash : record'.registrationHash = record.registrationHash := by
          have hcurrent := congrArg Service.registrationHash hrecord
          exact hcurrent
        have hhealth : record'.health = record.health := by
          rw [Service.health, Service.health, hinstances]
        simp only [hinstances, hhash, hhealth, hmissing, Catalog.invocationsBy, h.events]
        rfl

theorem queryTopic_current {c c' : Catalog} (h : SameCurrent c c') (body : Fields) :
    c'.queryTopic body = c.queryTopic body := by
  have hproviders (topic : Str) : c'.providersOf topic = c.providersOf topic :=
    serviceNames_current h _ fun _ => rfl
  have hconsumers (topic : Str) : c'.consumersOf topic = c.consumersOf topic :=
    serviceNames_current h _ fun _ => rfl
  simp only [Catalog.queryTopic, hproviders, hconsumers, Catalog.observedCallers, Catalog.observedHandlers, h.topics,
    h.events, h.spanOwner]

theorem query_current [Calendar] {c c' : Catalog} (h : SameCurrent c c') (kind : Query) (body : Fields) :
    c'.query kind body = c.query kind body := by
  cases kind with
  | fleet => exact queryFleet_current h
  | service => exact queryService_current h body
  | topic => exact queryTopic_current h body
  | trace => simp only [Catalog.query, Catalog.queryTrace, h.events]

end Remembering

section Projecting

-- Services that also remember alike, as far as a projection shows it.
structure SameShown (services services' : Dict Str Service) : Prop where
  current : currentServices services' = currentServices services
  hashes : ∀ name, (services'.get? name).bind Service.previousRegistrationHash =
    (services.get? name).bind Service.previousRegistrationHash
  changes : ∀ topic name, schemaChanged services' topic name = schemaChanged services topic name

variable {services services' : Dict Str Service}

theorem specOf_current (h : currentServices services' = currentServices services) (topic name : Str) :
    specOf services' topic name = specOf services topic name := by
  unfold specOf
  obtain ⟨hold, hnew⟩ | ⟨record, record', hold, hnew, hrecord⟩ := get?_cases h name
  · rw [hold, hnew]
  · have hspecs := congrArg Service.topicSpecs hrecord
    rw [hold, hnew]
    exact congrArg (fun specs : Dict Str Fields => specs.get? topic) hspecs

theorem presentSpecs_current (h : currentServices services' = currentServices services) (topic : Str)
    (consumers : List Str) : presentSpecs services' topic consumers = presentSpecs services topic consumers := by
  simp only [presentSpecs, specOf_current h]

theorem removedTopics_current (h : currentServices services' = currentServices services)
    (everConsumed : Finset Str) : removedTopics services' everConsumed = removedTopics services everConsumed := by
  have hconsumed : currentlyConsumed services' = currentlyConsumed services := by
    rw [currentlyConsumed, currentlyConsumed, Dict.values, Dict.values, List.flatMap_def, List.flatMap_def,
      List.map_map, List.map_map]
    exact congrArg List.flatten (map_current h _ fun _ _ => rfl)
  simp only [removedTopics, hconsumed]

theorem topicChanges_shown (h : SameShown services services') (topic : Str) (consumers : List Str) :
    topicChanges topic consumers services' = topicChanges topic consumers services := by
  simp only [topicChanges, h.changes]

variable [UnicodeData] {c c' : Catalog}

theorem topicEntry_shown (hcatalog : SameCurrent c c') (h : SameShown services services') :
    topicEntry c' services' = topicEntry c services := by
  funext entry
  simp only [topicEntry, queryTopic_current hcatalog, presentSpecs_current h.current, topicChanges_shown h]

theorem addChannel_shown (hcatalog : SameCurrent c c') (h : SameShown services services') :
    addChannel c' services' = addChannel c services := by
  funext acc entry
  simp only [addChannel, queryTopic_current hcatalog, presentSpecs_current h.current]

theorem serviceDocument_shown (hcatalog : SameCurrent c c') (h : SameShown services services')
    (name generatedAt : Str) :
    serviceDocument c' name services' generatedAt = serviceDocument c name services generatedAt := by
  unfold serviceDocument
  rw [queryService_current hcatalog]
  obtain ⟨hold, hnew⟩ | ⟨record, record', hold, hnew, hrecord⟩ := get?_cases h.current name
  · rw [hold, hnew]
  · have hhash := h.hashes name
    rw [hold, hnew] at hhash ⊢
    obtain ⟨_, _, _, _, _, _, _, _, _, _, _, _⟩ := record
    obtain ⟨_, _, _, _, _, _, _, _, _, _, _, _⟩ := record'
    cases hrecord
    cases hhash
    rfl

theorem manifest_current (hcatalog : SameCurrent c c') : manifest c' = manifest c := by
  have hentry (urls : Dict Str (Str × Str)) : manifestEntry c' urls = manifestEntry c urls := by
    funext entry
    simp only [manifestEntry, queryService_current hcatalog]
  funext fleet urls generatedAt
  rw [manifest, manifest, hentry]

theorem topology_current [TrueDivision] (hcatalog : SameCurrent c c') : topology c' = topology c := by
  have htopic : addTopic c' = addTopic c := by
    funext pairs entry
    simp only [addTopic, queryTopic_current hcatalog]
  funext fleet generatedAt
  rw [topology, topology, htopic]

variable [Calendar] [TrueDivision]

theorem buildArtifacts_shown (hcatalog : SameCurrent c c') (h : SameShown c.snapshotServices c'.snapshotServices)
    (sources : List ServiceEndpoint) (generatedAt : Str) :
    buildArtifacts c' sources generatedAt = buildArtifacts c sources generatedAt := by
  simp only [buildArtifacts, queryFleet_current hcatalog, manifest_current hcatalog, topology_current hcatalog, topics,
    removedTopics_current h.current, topicEntry_shown hcatalog h, hcatalog.everConsumed,
    serviceDocument_shown hcatalog h, asyncapi, addChannel_shown hcatalog h, hcatalog.events]

-- Artifacts that cannot be built fail on the same question.
theorem buildArtifacts_not_buildable (hcatalog : SameCurrent c c')
    (hnamed : ∀ name, (c.serviceOrNew name).name = name) (h : ¬c.Buildable) (sources : List ServiceEndpoint)
    (generatedAt : Str) : buildArtifacts c' sources generatedAt = buildArtifacts c sources generatedAt := by
  obtain ⟨fleet, hfleet⟩ : ∃ fleet, c.queryFleet = .ok fleet := ⟨_, rfl⟩
  rw [buildable_iff hnamed hfleet (endpoints sources) generatedAt] at h
  simp only [buildArtifacts, queryFleet_current hcatalog, manifest_current hcatalog, topology_current hcatalog, hfleet,
    bind, Except.bind]
  cases hmanifest : manifest c fleet (endpoints sources) generatedAt with
  | error error => rfl
  | ok manifest =>
      cases htopology : topology c fleet generatedAt with
      | error error => rfl
      | ok topology => exact absurd ⟨⟨manifest, hmanifest⟩, topology, htopology⟩ h

end Projecting

section Texts

theorem ofNat_ne_nil (n : Nat) : Str.ofNat n ≠ [] := by
  unfold Str.ofNat
  split <;> simp_all [Nat.digits_ne_nil_iff_ne_zero]

theorem reprFloat_ne_nil (x : PyFloat) : x.repr ≠ [] := by
  cases x with
  | finite d =>
      have hexponent (e : Int) : PyFloat.exponentText e ≠ [] := by
        unfold PyFloat.exponentText
        dsimp only
        split <;> simp
      have hdigits (c : Decimal) : PyFloat.reprDigits c ≠ [] := by
        unfold PyFloat.reprDigits
        dsimp only
        split
        · simp [hexponent]
        · split
          · simp
          · split <;> simp
      show PyFloat.reprDecimal (PyFloat.shortest d) ≠ []
      unfold PyFloat.reprDecimal
      split
      · simp
      · exact hdigits _
  | infinity negative => cases negative <;> simp [PyFloat.repr]
  | nan => simp [PyFloat.repr]

variable [UnicodeData]

-- What is true in Python has a text of its own.
theorem text_ne_nil {value : Json} (h : value.truthy = true) : value.text ≠ [] := by
  cases value with
  | null => cases h
  | bool b => cases b <;> simp [Json.text, Json.repr]
  | int n =>
      show Str.ofInt n ≠ []
      unfold Str.ofInt
      split
      · simp
      · exact ofNat_ne_nil _
  | float x => exact reprFloat_ne_nil x
  | str text => simpa [Json.truthy, Json.text] using h
  | arr items => simp [Json.text, Json.repr]
  | obj fields => simp [Json.text, Json.repr]

end Texts

section Registering

variable [UnicodeData]

-- The hash that stands as the previous one after a registration of another hash.
def Service.replacedHash (record : Service) : Option Str :=
  match record.registrationHash with
  | some held => if record.registered ∧ held ≠ [] then some held else record.previousRegistrationHash
  | none => record.previousRegistrationHash

-- A registration that its repetition does not take back: it changes no
-- contract, and its hash is text, or already stands as the previous one.
structure Settled (record : Service) (body : Fields) : Prop where
  specs : ∀ topic previous current, record.topicSpecs.get? topic = some previous →
    (specsOf body).get? topic = some current → Json.same (.obj current) (.obj previous) = true
  hash : (getField body "registrationHash").truthy = true →
    (∃ text, getField body "registrationHash" = .str text) ∨
      record.replacedHash = some (getField body "registrationHash").text

-- Of the hashes, a repetition changes the previous one alone.
theorem previousHash_again_iff (record : Service) (body : Fields) :
    ((record.registering body).registering body).previousRegistrationHash =
        (record.registering body).previousRegistrationHash ↔
      ((getField body "registrationHash").truthy = true →
        (∃ text, getField body "registrationHash" = .str text) ∨
          record.replacedHash = some (getField body "registrationHash").text) := by
  generalize hvalue : getField body "registrationHash" = value
  cases htruthy : value.truthy with
  | false => simp [Service.registering, hvalue, htruthy]
  | true =>
      have hne := text_ne_nil htruthy
      by_cases hstr : ∃ text, value = .str text
      · obtain ⟨text, rfl⟩ := hstr
        simp [Service.registering, hvalue, htruthy, Json.text]
      · have hother (held : Str) : value ≠ .str held := fun h => hstr ⟨held, h⟩
        have hfirst : (record.registering body).previousRegistrationHash = record.replacedHash := by
          unfold Service.registering Service.replacedHash
          cases record.registrationHash <;> simp [hvalue, hother]
        have hagain : ((record.registering body).registering body).previousRegistrationHash = some value.text := by
          simp [Service.registering, hvalue, htruthy, hne, hother]
        rw [hfirst, hagain]
        simp only [forall_const, hstr, false_or]
        exact eq_comm

theorem registering_current (record : Service) (body : Fields) :
    ((record.registering body).registering body).current = (record.registering body).current := rfl

-- A topic whose contract the registration changes.
def specChanged (previous current : Dict Str Fields) (topic : Str) : Bool :=
  match previous.get? topic, current.get? topic with
  | some previous, some current => !Json.same (.obj current) (.obj previous)
  | _, _ => false

theorem specChanged_self {body : Fields} (hbody : WellFormedObject body) (topic : Str) :
    specChanged (specsOf body) (specsOf body) topic = false := by
  unfold specChanged
  cases hspec : (specsOf body).get? topic with
  | none => rfl
  | some spec =>
      simp only [Bool.not_eq_false']
      exact Json.same_refl (wellFormed_specsOf hbody hspec)

theorem settled_specs_iff {record : Service} {body : Fields} :
    (∀ topic, specChanged record.topicSpecs (specsOf body) topic = false) ↔
      ∀ topic previous current, record.topicSpecs.get? topic = some previous →
        (specsOf body).get? topic = some current → Json.same (.obj current) (.obj previous) = true := by
  apply forall_congr'
  intro topic
  unfold specChanged
  cases record.topicSpecs.get? topic with
  | none => simp
  | some previous =>
      cases (specsOf body).get? topic with
      | none => simp
      | some current => simp

variable {c : Catalog} {name : Str} {body : Fields}

theorem services_register (c : Catalog) (name : Str) (body : Fields) :
    (c.register name body).services = c.services.set name ((c.serviceOrNew name).registering body) := rfl

theorem schemaChanged_register (topic other : Str) :
    schemaChanged (c.register name body).services topic other =
      if name = other then specChanged (c.serviceOrNew name).topicSpecs (specsOf body) topic
      else schemaChanged c.services topic other := by
  by_cases hname : name = other
  · subst hname
    rw [if_pos rfl, schemaChanged, specOf, previousSpecOf, services_register, Dict.get?_set_self]
    rfl
  · rw [if_neg hname, schemaChanged, specOf, previousSpecOf, services_register, Dict.get?_set_of_ne _ _ hname]
    rfl

theorem serviceOrNew_register_self (c : Catalog) (name : Str) (body : Fields) :
    (c.register name body).serviceOrNew name = (c.serviceOrNew name).registering body := by
  rw [serviceOrNew_register, if_pos rfl]

theorem get?_register_self (c : Catalog) (name : Str) (body : Fields) :
    (c.register name body).services.get? name = some ((c.serviceOrNew name).registering body) := by
  rw [services_register, Dict.get?_set_self]

theorem get?_register_again (c : Catalog) (name : Str) (body : Fields) :
    ((c.register name body).register name body).services.get? name =
      some (((c.serviceOrNew name).registering body).registering body) := by
  rw [get?_register_self, serviceOrNew_register_self]

-- The second registration finds the schemas of the first.
theorem schemaChanged_register_again (hbody : WellFormedObject body) (topic : Str) :
    schemaChanged ((c.register name body).register name body).services topic name = false := by
  rw [schemaChanged_register, if_pos rfl, serviceOrNew_register_self, registering_topicSpecs]
  exact specChanged_self hbody topic

theorem sameCurrent_register_again (c : Catalog) (name : Str) (body : Fields) :
    SameCurrent (c.register name body) ((c.register name body).register name body) := by
  refine ⟨?_, ?_, ?_, rfl, rfl, rfl⟩
  · rw [services_register (c.register name body), serviceOrNew_register_self, services_register,
      currentServices_set, currentServices_set, Entries.set_set, registering_current]
  · show (c.register name body).topics ∪ _ ∪ _ = (c.register name body).topics
    rw [serviceOrNew_register_self]
    ext topic
    simp only [Catalog.register, Service.registering, Finset.mem_union, List.mem_toFinset]
    tauto
  · show (c.register name body).everConsumed ∪ _ = (c.register name body).everConsumed
    rw [serviceOrNew_register_self]
    ext topic
    simp only [Catalog.register, Service.registering, Finset.mem_union, List.mem_toFinset]
    tauto

-- The two registrations show the same exactly when the first one settled everything.
theorem sameShown_register_again_iff (hbody : WellFormedObject body) :
    SameShown (c.register name body).services ((c.register name body).register name body).services ↔
      Settled (c.serviceOrNew name) body := by
  constructor
  · intro h
    refine ⟨settled_specs_iff.mp fun topic => ?_, ?_⟩
    · have hchanges := h.changes topic name
      rw [schemaChanged_register_again hbody, schemaChanged_register, if_pos rfl] at hchanges
      exact hchanges.symm
    · have hhash := h.hashes name
      rw [get?_register_again, get?_register_self] at hhash
      exact (previousHash_again_iff _ _).mp hhash
  · intro h
    refine ⟨(sameCurrent_register_again c name body).services, fun other => ?_, fun topic other => ?_⟩
    · by_cases hname : name = other
      · subst hname
        rw [get?_register_again, get?_register_self]
        exact (previousHash_again_iff _ _).mpr h.hash
      · rw [services_register (c.register name body), Dict.get?_set_of_ne _ _ hname]
    · by_cases hname : name = other
      · subst hname
        rw [schemaChanged_register_again hbody, schemaChanged_register, if_pos rfl]
        exact (settled_specs_iff.mpr h.specs topic).symm
      · rw [schemaChanged_register, if_neg hname]

end Registering

section Heartbeat

theorem setService_setService (c : Catalog) (name : Str) (first second : Service) :
    (c.setService name first).setService name second = c.setService name second := by
  have hservices : (c.services.set name first).set name second = c.services.set name second :=
    Dict.ext (Entries.set_set name first second c.services.entries)
  rw [Catalog.setService, Catalog.setService, Catalog.setService]
  simp only [hservices]

variable [UnicodeData]

-- A heartbeat touches nothing, makes its service known, or also records one instance.
theorem heartbeat_cases (body : Fields) :
    (∀ c, (ingestHeartbeat body c).2 = c) ∨
      ∃ (name : Str) (beat : Dict Str Instance → Dict Str Instance), (∀ held, beat (beat held) = beat held) ∧
        ∀ c, (ingestHeartbeat body c).2 = c.setService name
          { c.serviceOrNew name with instances := beat (c.serviceOrNew name).instances } := by
  cases hname : require body "service" with
  | error error =>
      refine Or.inl fun c => ?_
      simp [ingestHeartbeat, Py.bind_apply, hname]
  | ok name =>
      refine Or.inr ⟨name, ?_⟩
      cases hchecks : raises ((Json.orElse (Json.getField body "health") (.obj [])).get "healthChecks") with
      | error error =>
          refine ⟨id, fun _ => rfl, fun c => ?_⟩
          simp [ingestHeartbeat, Py.bind_apply, hname, service, hchecks]
      | ok checks =>
          cases hhealthy : raises ((Json.orElse (Json.getField body "health") (.obj [])).get "isHealthy") with
          | error error =>
              refine ⟨id, fun _ => rfl, fun c => ?_⟩
              simp [ingestHeartbeat, Py.bind_apply, hname, service, hchecks, hhealthy]
          | ok healthy =>
              let version := Json.getField body "serviceVersion"
              refine ⟨fun held => held.set (textField body "instanceId") {
                healthy := healthy.truthy
                registrationHash := Json.getField body "registrationHash"
                serviceVersion := if version.truthy then some version.text else none
                healthChecks := asObject checks }, fun held => Dict.ext (Entries.set_set _ _ _ _), fun c => ?_⟩
              simp only [ingestHeartbeat, Py.bind_apply, hname, service, hchecks, hhealthy, updateService,
                Py.lift_apply, Py.modify_apply, Py.pure_apply]
              rw [Catalog.serviceOrNew_setService_self, setService_setService]

theorem heartbeat_again (c : Catalog) (body : Fields) :
    (c.ingest ⟨.heartbeat, body⟩).ingest ⟨.heartbeat, body⟩ = c.ingest ⟨.heartbeat, body⟩ := by
  show (ingestHeartbeat body (ingestHeartbeat body c).2).2 = (ingestHeartbeat body c).2
  obtain hnone | ⟨name, beat, hbeat, hstate⟩ := heartbeat_cases body
  · rw [hnone, hnone]
  · rw [hstate, hstate, Catalog.serviceOrNew_setService, if_pos rfl, setService_setService]
    simp only [hbeat]

end Heartbeat

section Telling

theorem optionalJson_injective : Function.Injective optionalJson := by
  intro a b h
  cases a <;> cases b <;> simp_all [optionalJson]

-- Which consumers changed a contract can be read off the signals.
theorem schemaChanged_of_changes {services services' : Dict Str Service} {topic : Str} {consumers : List Str}
    (h : topicChanges topic consumers services' = topicChanges topic consumers services) {name : Str}
    (hname : name ∈ consumers) : schemaChanged services' topic name = schemaChanged services topic name := by
  have hinj : Function.Injective fun consumer : Str =>
      Json.obj [Json.field "kind" (.str "schema-changed"),
        Json.field "description" (.str (consumer ++ (" changed the contract for " : Str) ++ topic))] := by
    intro first second heq
    simpa [Json.field] using heq
  have hfilter := List.map_injective_iff.mpr hinj h
  have hmem : name ∈ consumers.filter (fun consumer => schemaChanged services' topic consumer) ↔
      name ∈ consumers.filter fun consumer => schemaChanged services topic consumer := by
    rw [hfilter]
  simp only [List.mem_filter, hname, true_and] at hmem
  exact Bool.eq_iff_iff.mpr hmem

variable [UnicodeData] {c : Catalog}

theorem serviceDocument_previous {name generatedAt : Str} {services : Dict Str Service} {document : Fields}
    (h : serviceDocument c name services generatedAt = .ok document) :
    Json.getField document "previousSpecHash" =
      optionalJson ((services.get? name).bind Service.previousRegistrationHash) := by
  obtain ⟨detail, -, hdocument⟩ := Except.bind_eq_ok.mp h
  cases hdocument
  cases services.get? name <;> rfl

theorem topicEntry_changes {services : Dict Str Service} {entry : Fields} {out : Json}
    (h : topicEntry c services entry = .ok out) :
    Json.getField (asObject out) "changes" =
      .arr (topicChanges (member entry "topic") (c.consumersOf (member entry "topic")) services) := by
  obtain ⟨detail, hdetail, hout⟩ := Except.bind_eq_ok.mp h
  have hasked := (queryTopic_ok_iff.mp ⟨detail, hdetail⟩).1
  obtain ⟨-, hconsumers⟩ := queryTopic_edges (require_name hasked) hdetail
  cases hout
  rw [← texts_field hconsumers]
  rfl

theorem topics_active {fleet document : Fields} {services : Dict Str Service} {everConsumed : Finset Str}
    {generatedAt : Str} (h : topics c fleet services everConsumed generatedAt = .ok document) :
    ∃ entries, Json.getField document "topics" = .arr entries ∧
      List.Forall₂ (fun entry out => topicEntry c services entry = .ok out)
        ((elements fleet "topics").filter fun entry => member entry "topic" ∉ removedTopics services everConsumed)
        entries := by
  obtain ⟨entries, hentries, hdocument⟩ := Except.bind_eq_ok.mp h
  cases hdocument
  exact ⟨entries, rfl, Except.mapM_eq_ok.mp hentries⟩

theorem name_register {c : Catalog} (h : ∀ name, (c.serviceOrNew name).name = name) (name : Str) (body : Fields)
    (other : Str) : ((c.register name body).serviceOrNew other).name = other := by
  rw [serviceOrNew_register]
  split
  · rename_i heq
    subst heq
    exact h name
  · exact h other

end Telling

section Redelivery

variable [UnicodeData] [Calendar] [TrueDivision]

-- The same answers to every query, and the same artifacts.
structure SameView (c c' : Catalog) : Prop where
  queries : ∀ kind body, c'.query kind body = c.query kind body
  artifacts : ∀ sources generatedAt, buildArtifacts c' sources generatedAt = buildArtifacts c sources generatedAt

-- The contract of a changed topic is told as changed, where the artifacts can be built.
theorem specChanged_of_view {c : Catalog} (hnamed : ∀ name, (c.serviceOrNew name).name = name) {name : Str}
    {body : Fields} (hbody : WellFormedObject body) {fleet : Fields} {artifacts : Artifacts}
    (hfleet : (c.register name body).queryFleet = .ok fleet)
    (h : Projects (c.register name body) fleet [] [] artifacts)
    (h' : Projects ((c.register name body).register name body) fleet [] [] artifacts) (topic : Str) :
    specChanged (c.serviceOrNew name).topicSpecs (specsOf body) topic = false := by
  have hnamed' := name_register hnamed name body
  have hcurrent := sameCurrent_register_again c name body
  by_contra hchanged
  rw [Bool.not_eq_false] at hchanged
  -- The topic is one the document requests, so it is active and the service consumes it.
  have hconsumed : topic ∈ specTopicIds body [.requests] := by
    unfold specChanged at hchanged
    cases hspec : (specsOf body).get? topic with
    | none =>
        rw [hspec] at hchanged
        cases hold : (c.serviceOrNew name).topicSpecs.get? topic <;> simp [hold] at hchanged
    | some spec =>
        rcases Entries.mem_update ((Dict.mem_entries_iff _ _ _).mpr hspec) with hnil | hmem
        · cases hnil
        · obtain ⟨entry, hentry, heq⟩ := List.mem_map.mp hmem
          exact mem_specTopicIds.mpr ⟨.requests, List.mem_singleton_self _, entry, hentry, congrArg Prod.fst heq⟩
  have hconsumer : name ∈ (c.register name body).consumersOf topic := by
    rw [Catalog.mem_consumersOf, serviceOrNew_register_self]
    exact hconsumed
  have htopic : topic ∈ (c.register name body).topics := by
    simp only [Catalog.register, Service.registering, Finset.mem_union, List.mem_toFinset, hconsumed, or_true, true_or]
  have hactive : topic ∉ removedTopics (c.register name body).services (c.register name body).everConsumed := by
    rw [removedTopics, List.mem_filter]
    rintro ⟨-, hremoved⟩
    refine (of_decide_eq_true hremoved) (List.mem_flatMap.mpr ⟨(c.serviceOrNew name).registering body, ?_, hconsumed⟩)
    exact Dict.mem_values_of_get? (by rw [services_register, Dict.get?_set_self])
  obtain ⟨entries, hentries, hround⟩ := topics_active h.topics
  obtain ⟨entries', hentries', hround'⟩ := topics_active h'.topics
  rw [hentries] at hentries'
  cases hentries'
  rw [snapshotServices_eq hnamed'] at hround
  rw [snapshotServices_eq (name_register hnamed' name body), removedTopics_current hcurrent.services,
    hcurrent.everConsumed] at hround'
  have hmem : topic ∈ (elements fleet "topics").map fun entry => member entry "topic" := by
    rw [fleet_topics hfleet, Finset.mem_sort]
    exact htopic
  obtain ⟨entry, hentry, rfl⟩ := List.mem_map.mp hmem
  have hkept : entry ∈ (elements fleet "topics").filter fun entry => member entry "topic" ∉
      removedTopics (c.register name body).services (c.register name body).everConsumed :=
    List.mem_filter.mpr ⟨hentry, decide_eq_true hactive⟩
  obtain ⟨out, hout, hout'⟩ := exists_of_mem_both hround hround' hkept
  have hchanges := (topicEntry_changes hout').symm.trans (topicEntry_changes hout)
  have hconsumers : ((c.register name body).register name body).consumersOf (member entry "topic") =
      (c.register name body).consumersOf (member entry "topic") :=
    serviceNames_current hcurrent _ fun _ => rfl
  rw [hconsumers, Json.arr.injEq] at hchanges
  have hsame := schemaChanged_of_changes hchanges hconsumer
  rw [schemaChanged_register_again hbody, schemaChanged_register, if_pos rfl, hchanged] at hsame
  cases hsame

theorem settled_of_view {c : Catalog} (hnamed : ∀ name, (c.serviceOrNew name).name = name) {name : Str}
    {body : Fields} (hbody : WellFormedObject body) (hbuildable : (c.register name body).Buildable)
    (hview : SameView (c.register name body) ((c.register name body).register name body)) :
    Settled (c.serviceOrNew name) body := by
  have hnamed' := name_register hnamed name body
  obtain ⟨artifacts, hartifacts⟩ := (buildArtifacts_ok_iff hnamed').mpr hbuildable
  have hartifacts' := (hview.artifacts [] []).trans hartifacts
  obtain ⟨fleet, hfleet, hprojects⟩ := buildArtifacts_eq_ok.mp hartifacts
  obtain ⟨fleet', hfleet', hprojects'⟩ := buildArtifacts_eq_ok.mp hartifacts'
  rw [queryFleet_current (sameCurrent_register_again c name body), hfleet] at hfleet'
  cases hfleet'
  refine ⟨settled_specs_iff.mp (specChanged_of_view hnamed hbody hfleet hprojects hprojects'), ?_⟩
  have hkeys := (hprojects.document hnamed' hfleet).1
  have hkey : name ∈ artifacts.services.keys := by
    rw [hkeys, Dict.mem_keys_iff, get?_register_self]
    rfl
  obtain ⟨document, hdocument⟩ := Option.isSome_iff_exists.mp ((Dict.mem_keys_iff _ _).mp hkey)
  have hfleet' := (queryFleet_current (sameCurrent_register_again c name body)).trans hfleet
  have hshown := serviceDocument_previous ((hprojects.document hnamed' hfleet).2 name document hdocument)
  have hshown' := serviceDocument_previous
    ((hprojects'.document (name_register hnamed' name body) hfleet').2 name document hdocument)
  rw [snapshotServices_eq hnamed', get?_register_self] at hshown
  rw [snapshotServices_eq (name_register hnamed' name body), get?_register_again] at hshown'
  exact (previousHash_again_iff _ _).mp (optionalJson_injective (hshown'.symm.trans hshown))

theorem sameView_of_settled {c : Catalog} (hnamed : ∀ name, (c.serviceOrNew name).name = name) {name : Str}
    {body : Fields} (hbody : WellFormedObject body) (h : Settled (c.serviceOrNew name) body) :
    SameView (c.register name body) ((c.register name body).register name body) := by
  have hnamed' := name_register hnamed name body
  have hcurrent := sameCurrent_register_again c name body
  have hshown := (sameShown_register_again_iff hbody).mpr h
  refine ⟨query_current hcurrent, buildArtifacts_shown hcurrent ?_⟩
  rw [snapshotServices_eq hnamed', snapshotServices_eq (name_register hnamed' name body)]
  exact hshown

-- A post whose repetition the fleet view does not show. A heartbeat is one always.
def Quiet (c : Catalog) (post : Post) : Prop :=
  ∀ name, post.registers = some name → Settled (c.serviceOrNew name) post.body

-- For every state that posts lead to, and every register or heartbeat body.
theorem redelivery_iff (posts : List Post) {post : Post} (hfeed : post.feed = .register ∨ post.feed = .heartbeat)
    (hbody : WellFormedObject post.body) :
    SameView ((Catalog.empty.run posts).ingest post) (((Catalog.empty.run posts).ingest post).ingest post) ↔
      Quiet (Catalog.empty.run posts) post ∨ ¬((Catalog.empty.run posts).ingest post).Buildable := by
  have hnamed : ∀ name, ((Catalog.empty.run posts).serviceOrNew name).name = name := name_run (fun _ => rfl) posts
  generalize Catalog.empty.run posts = c at hnamed
  cases hregisters : post.registers with
  | some name =>
      have hcurrent := sameCurrent_register_again c name post.body
      rw [registers_apply hregisters, registers_apply hregisters]
      constructor
      · intro hview
        by_cases hbuildable : (c.register name post.body).Buildable
        · refine Or.inl fun other hother => ?_
          rw [hregisters] at hother
          cases hother
          exact settled_of_view hnamed hbody hbuildable hview
        · exact Or.inr hbuildable
      · rintro (hquiet | hbuildable)
        · exact sameView_of_settled hnamed hbody (hquiet name hregisters)
        · exact ⟨query_current hcurrent,
            buildArtifacts_not_buildable hcurrent (name_register hnamed name post.body) hbuildable⟩
  | none =>
      have hagain : (c.ingest post).ingest post = c.ingest post := by
        obtain ⟨feed, body⟩ := post
        rcases hfeed with rfl | rfl
        · have hrefused (c : Catalog) : c.ingest ⟨.register, body⟩ = c := by
            show (ingestRegister body c).2 = c
            rw [ingestRegister_apply]
            cases hname : require body "service" with
            | error error => rfl
            | ok name =>
                simp only [Post.registers, hname] at hregisters
                cases hregisters
          rw [hrefused, hrefused]
        · exact heartbeat_again c body
      rw [hagain]
      constructor
      · intro _
        exact Or.inl fun name hname => by rw [hregisters] at hname; cases hname
      · intro _
        exact ⟨fun _ _ => rfl, fun _ _ => rfl⟩

end Redelivery

section Example

@[reducible] def wholeDivision : TrueDivision := ⟨fun a b => .finite (Decimal.ofParts (a / b) 0)⟩

-- A service that takes an order of the given type.
def orderDocument (kind : Str) : Fields :=
  [field "service" (.str "orders"),
    field "requests" (.arr [.obj [field "topic" (.str "order:create"),
      field "request" (.obj [field "type" (.str kind)])]])]

theorem wellFormed_orderDocument (kind : String) : WellFormedObject (orderDocument kind) := by
  simp [orderDocument, field, WellFormedObject, WellFormed, WellFormedFields, WellFormedItems, Str.joined_ofString]

theorem redelivery_orders :
    letI := UnicodeData.ascii
    letI := noCalendar
    letI := wholeDivision
    SameView (Catalog.empty.ingest ⟨.register, orderDocument "string"⟩)
        ((Catalog.empty.ingest ⟨.register, orderDocument "string"⟩).ingest ⟨.register, orderDocument "string"⟩) ↔
      Quiet Catalog.empty ⟨.register, orderDocument "string"⟩ ∨
        ¬(Catalog.empty.ingest ⟨.register, orderDocument "string"⟩).Buildable := by
  let _ := UnicodeData.ascii
  let _ := noCalendar
  let _ := wholeDivision
  exact redelivery_iff [] (Or.inl rfl) (wellFormed_orderDocument "string")

-- The orders become numbers: the second of two deliveries takes the signal back.
theorem not_redelivery_changed_orders :
    letI := UnicodeData.ascii
    letI := noCalendar
    letI := wholeDivision
    ¬SameView
      ((Catalog.empty.run [⟨.register, orderDocument "string"⟩]).ingest ⟨.register, orderDocument "integer"⟩)
      (((Catalog.empty.run [⟨.register, orderDocument "string"⟩]).ingest
        ⟨.register, orderDocument "integer"⟩).ingest ⟨.register, orderDocument "integer"⟩) := by
  let _ := UnicodeData.ascii
  let _ := noCalendar
  let _ := wholeDivision
  let c := Catalog.empty.run [⟨.register, orderDocument "string"⟩]
  have hnamed : ∀ name, (c.serviceOrNew name).name = name := name_run (fun _ => rfl) _
  have hregisters : (Post.mk .register (orderDocument "integer")).registers = some ("orders" : Str) := by
    decide +kernel
  intro hview
  rw [registers_apply hregisters, registers_apply hregisters] at hview
  have hbuildable : (c.register "orders" (orderDocument "integer")).Buildable := by
    refine ⟨by decide +kernel, by decide +kernel, ?_, ?_⟩
    · intro topic _ _
      exact ⟨Dict.empty, rfl⟩
    · intro topic _ _
      exact ⟨Dict.empty, rfl⟩
  have hsettled := settled_of_view hnamed (wellFormed_orderDocument "integer") hbuildable hview
  have hchanged : specChanged (c.serviceOrNew "orders").topicSpecs (specsOf (orderDocument "integer")) "order:create" =
      true := by
    decide +kernel
  rw [settled_specs_iff.mpr hsettled.specs] at hchanged
  cases hchanged

end Example

end Benzene.Mesh
