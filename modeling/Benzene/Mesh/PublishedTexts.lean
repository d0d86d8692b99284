import Benzene.Mesh.Publishing
import Benzene.Mesh.Redelivery

namespace Benzene.Mesh

open Benzene.Data Benzene.Data.Json Benzene.Results

section Known

-- Every event is of a known service and a known topic, and so is every topic
-- that was ever consumed.
structure Catalog.Known (c : Catalog) : Prop where
  services : ∀ event ∈ c.events, event.service ∈ c.services.keys
  topics : ∀ event ∈ c.events, event.topic ∈ c.topics
  everConsumed : c.everConsumed ⊆ c.topics

theorem known_empty : Catalog.empty.Known := by
  refine ⟨?_, ?_, Finset.Subset.refl _⟩ <;> simp [Catalog.empty]

theorem Catalog.Known.setService {c : Catalog} (h : c.Known) (name : Str) (record : Service) :
    (c.setService name record).Known :=
  ⟨fun event hevent => Entries.mem_keys_set.mpr (Or.inr (h.services event hevent)), h.topics, h.everConsumed⟩

theorem Catalog.Known.observe {c : Catalog} (h : c.Known) (event : Event) : (c.observe event).Known := by
  have hset := h.setService event.service (c.serviceOrNew event.service)
  refine ⟨?_, ?_, h.everConsumed.trans (Finset.subset_insert _ _)⟩
  · intro other hother
    rcases List.mem_append.mp hother with hold | hnew
    · exact hset.services other hold
    · rw [List.mem_singleton.mp hnew]
      exact Entries.mem_keys_set.mpr (Or.inl rfl)
  · intro other hother
    rcases List.mem_append.mp hother with hold | hnew
    · exact Finset.mem_insert_of_mem (h.topics other hold)
    · rw [List.mem_singleton.mp hnew]
      exact Finset.mem_insert_self _ _

theorem known_updateService (name : Str) (f : Service → Service) : Py.Preserves Catalog.Known (updateService name f) :=
  .modify fun _ hc => hc.setService name _

variable [UnicodeData]

theorem Catalog.Known.register {c : Catalog} (h : c.Known) (name : Str) (body : Fields) :
    (c.register name body).Known := by
  refine ⟨(h.setService name _).services, fun event hevent => ?_, ?_⟩
  · simp only [Catalog.register, Finset.mem_union]
    exact Or.inl (Or.inl (h.topics event hevent))
  · intro topic htopic
    simp only [Catalog.register, Finset.mem_union] at htopic ⊢
    rcases htopic with hold | hnew
    · exact Or.inl (Or.inl (h.everConsumed hold))
    · exact Or.inl (Or.inr hnew)

theorem known_ingestEvent (raw : Json) : Py.Preserves Catalog.Known (ingestEvent raw) := by
  intro c hc
  cases hdecode : decodeEvent raw with
  | error error =>
      rw [ingestEvent_error hdecode]
      exact hc
  | ok event =>
      have hobserved := hc.observe event
      rw [ingestEvent_ok hdecode]
      exact ⟨hobserved.services, hobserved.topics, hobserved.everConsumed⟩

theorem known_ingest {c : Catalog} (h : c.Known) (post : Post) : (c.ingest post).Known := by
  obtain ⟨feed, body⟩ := post
  cases feed with
  | register => exact Py.Preserves.bind (.lift _) (fun name => .bind (.modify fun _ hc => hc.register name body)
      fun _ => .pure _) c h
  | heartbeat => exact Py.Preserves.bind (.lift _) (fun name => .bind (known_updateService name id) fun _ =>
      .bind (.lift _) fun _ => .bind (.lift _) fun _ => .bind (known_updateService name _) fun _ => .pure _) c h
  | traces => exact Py.Preserves.bind (.lift _) (fun _ => .bind (.mapEach fun raw _ => known_ingestEvent raw)
      fun _ => .pure _) c h
  | issues => exact Py.Preserves.bind (.lift _) (fun name => .bind (known_updateService name _) fun _ =>
      .bind (.lift _) fun _ => .bind (fun _ hc => ⟨hc.services, hc.topics, hc.everConsumed⟩) fun _ => .pure _) c h

theorem known_run {c : Catalog} (h : c.Known) (posts : List Post) : (c.run posts).Known := by
  induction posts generalizing c with
  | nil => exact h
  | cons post posts ih => exact ih (known_ingest h post)

-- The contracts of a record are those of the document it was registered with.
def Service.HoldsDocument (record : Service) : Prop :=
  record.topicSpecs = if record.registered then specsOf record.document else Dict.empty

theorem holdsDocument_ingest {c : Catalog} (h : ∀ name, (c.serviceOrNew name).HoldsDocument) (post : Post)
    (name : Str) : ((c.ingest post).serviceOrNew name).HoldsDocument := by
  cases hregisters : post.registers with
  | none =>
      have hkept := (not_registers_apply hregisters c).registration name
      have hspecs := congrArg Service.topicSpecs hkept
      have hregistered := congrArg Service.registered hkept
      have hdocument := congrArg Service.document hkept
      simp only [Service.registration] at hspecs hregistered hdocument
      rw [Service.HoldsDocument, hspecs, hregistered, hdocument]
      exact h name
  | some other =>
      rw [registers_apply hregisters, serviceOrNew_register]
      split
      · rfl
      · exact h name

theorem holdsDocument_run {c : Catalog} (h : ∀ name, (c.serviceOrNew name).HoldsDocument) (posts : List Post)
    (name : Str) : ((c.run posts).serviceOrNew name).HoldsDocument := by
  induction posts generalizing c with
  | nil => exact h name
  | cons post posts ih => exact ih (holdsDocument_ingest h post)

end Known

section Texts

theorem encodable_optionalJson {value : Option Str} :
    (optionalJson value).encodable = true ↔ ∀ text, value = some text → Str.Encodable text := by
  cases value with
  | none => simp [optionalJson, encodable]
  | some text => simp [optionalJson, encodable_str]

theorem encodable_strings {texts : List Str} :
    (strings texts).encodable = true ↔ ∀ text ∈ texts, Str.Encodable text := by
  simp only [strings, encodable_arr, List.forall_mem_map, encodable_str]

theorem encodable_literal (text : String) : (Json.str text).encodable = true :=
  encodable_str.mpr (Str.encodable_ofString text)

theorem encodable_status (health : Str) :
    Str.Encodable ((Entries.get? health healthToStatus).getD "unreachable") := by
  simp only [healthToStatus, Entries.get?_cons, Entries.get?_nil]
  split_ifs <;> exact Str.encodable_ofString _

theorem encodable_channelKey {topic : Str} (h : Str.Encodable topic) : Str.Encodable (channelKey topic) := by
  intro c hc
  obtain ⟨original, horiginal, rfl⟩ := List.mem_map.mp hc
  split
  · decide
  · exact h original horiginal

-- The checks of the instances, as the service's document has them.
def Service.mergedChecks (record : Service) : Fields :=
  record.instances.values.foldl (fun checks inst => Entries.update checks inst.healthChecks) []

-- What is said of a service in its document and in the manifest.
structure Service.TextsEncodable (record : Service) : Prop where
  document : record.registered = true → (Json.obj record.document).encodable = true
  hash : ∀ hash, record.registrationHash = some hash → Str.Encodable hash
  previousHash : ∀ hash, record.previousRegistrationHash = some hash → Str.Encodable hash
  checks : (Json.obj record.mergedChecks).encodable = true

-- The texts that the artifacts are made of can be sent as UTF-8.
structure Catalog.TextsEncodable (c : Catalog) (sources : List ServiceEndpoint) (generatedAt : Str) : Prop where
  stamp : Str.Encodable generatedAt
  names : ∀ name ∈ c.services.keys, Str.Encodable name
  links : ∀ name ∈ c.services.keys, ∀ urls, (endpoints sources).get? name = some urls →
    Str.Encodable urls.1 ∧ Str.Encodable urls.2
  topics : ∀ topic ∈ c.topics, Str.Encodable topic
  statuses : ∀ event ∈ c.events, Str.Encodable event.status
  services : ∀ name record, c.services.get? name = some record → record.TextsEncodable

theorem encodable_annotations {generatedAt : Str} :
    (Json.obj (annotations generatedAt)).encodable = true ↔ Str.Encodable generatedAt := by
  have hempty : (Json.arr []).encodable = true := rfl
  simp only [annotations, encodable_field, encodable_str, hempty, encodable_obj_nil, and_true]

theorem encodable_usage {events : List Event} {generatedAt : Str} :
    (Json.obj (usage events generatedAt)).encodable = true ↔
      Str.Encodable generatedAt ∧ ∀ event ∈ events,
        Str.Encodable event.topic ∧ Str.Encodable event.service ∧ Str.Encodable event.status := by
  have hint (n : Int) : (Json.int n).encodable = true := rfl
  have hnull : Json.null.encodable = true := rfl
  simp only [usage, encodable_field, encodable_str, hnull, encodable_obj_nil, encodable_arr, List.forall_mem_map,
    List.mem_insertionSort, mem_distinct, hint, encodable_literal, List.getD_cons_zero, List.getD_cons_succ, true_and,
    and_true]

theorem encodable_specJson {name : Str} {record : Service} (hname : Str.Encodable name) :
    (specJson name record).encodable = true ↔
      (record.registered = true → (Json.obj record.document).encodable = true) := by
  unfold specJson
  cases record.registered with
  | false => simp [encodable]
  | true =>
      rw [if_pos rfl, encodable_str, encodable_dumpsRaw]
      simp only [forall_const]
      split
      · rfl
      · rename_i hnone
        have hmissing : ("service" : Str) ∉ Entries.keys record.document :=
          (Entries.get?_eq_none_iff _ _).mp (Option.not_isSome_iff_eq_none.mp hnone)
        rw [Entries.set_eq_append hmissing, encodable_append_fields, encodable_obj_cons]
        simp [encodable_str, hname, encodable_obj_nil, Str.encodable_ofString]

theorem mem_keys_of_serviceNames {c : Catalog} {p : Service → Bool} {name : Str} (h : name ∈ c.serviceNames p) :
    name ∈ c.services.keys := by
  rw [Catalog.serviceNames, Str.mem_sorted] at h
  obtain ⟨entry, hentry, rfl⟩ := List.mem_map.mp h
  exact List.mem_map_of_mem (List.mem_filter.mp hentry).1

def EncodablePairs (pairs : Dict (Str × Str) PairCounts) : Prop :=
  ∀ pair ∈ pairs.keys, Str.Encodable pair.1 ∧ Str.Encodable pair.2

theorem encodablePairs_foldl {invocations errors : Int} {edges : List (Str × Str)}
    (hedges : ∀ edge ∈ edges, Str.Encodable edge.1 ∧ Str.Encodable edge.2) {pairs : Dict (Str × Str) PairCounts}
    (h : EncodablePairs pairs) : EncodablePairs (edges.foldl (addPair invocations errors) pairs) := by
  induction edges generalizing pairs with
  | nil => exact h
  | cons edge rest ih =>
      obtain ⟨hedge, hrest⟩ := List.forall_mem_cons.mp hedges
      refine ih hrest fun pair hpair => ?_
      rcases Entries.mem_keys_set.mp hpair with rfl | hold
      · exact hedge
      · exact h pair hold

variable [UnicodeData] {c : Catalog} {generatedAt : Str}

theorem encodable_manifestEntry {urls : Dict Str (Str × Str)} {entry : Fields} {out : Json}
    (h : manifestEntry c urls entry = .ok out) :
    (Str.Encodable (member entry "service") ∧ ∀ links, urls.get? (member entry "service") = some links →
        Str.Encodable links.1 ∧ Str.Encodable links.2) ↔ out.encodable = true := by
  obtain ⟨detail, -, hout⟩ := Except.bind_eq_ok.mp h
  cases hout
  have hbool (b : Bool) : (Json.bool b).encodable = true := rfl
  have hlinks : (∀ links, urls.get? (member entry "service") = some links →
        Str.Encodable links.1 ∧ Str.Encodable links.2) ↔
      (∀ text, (urls.get? (member entry "service")).map Prod.fst = some text → Str.Encodable text) ∧
        ∀ text, (urls.get? (member entry "service")).map Prod.snd = some text → Str.Encodable text := by
    cases urls.get? (member entry "service") <;> simp
  simp only [encodable_field, encodable_str, encodable_status, hbool, encodable_optionalJson, encodable_obj_nil,
    hlinks, true_and, and_true]

theorem encodable_manifest {fleet out : Fields} {urls : Dict Str (Str × Str)}
    (h : manifest c fleet urls generatedAt = .ok out) :
    (Json.obj out).encodable = true ↔ Str.Encodable generatedAt ∧ ∀ entry ∈ elements fleet "services",
      Str.Encodable (member entry "service") ∧ ∀ links, urls.get? (member entry "service") = some links →
        Str.Encodable links.1 ∧ Str.Encodable links.2 := by
  obtain ⟨services, hservices, hout⟩ := Except.bind_eq_ok.mp h
  cases hout
  have hentries := forall_mem_iff_of_forall₂ (Except.mapM_eq_ok.mp hservices)
    fun _ _ hentry => encodable_manifestEntry hentry
  simp only [encodable_field, encodable_str, encodable_arr, encodable_obj_nil, and_true, hentries]

-- What is written for a service can be sent when what the record has of it can.
theorem encodable_serviceDocument {services : Dict Str Service} {name : Str} {document : Fields} {record : Service}
    (hget : services.get? name = some record) (h : serviceDocument c name services generatedAt = .ok document) :
    (Json.obj document).encodable = true ↔
      Str.Encodable name ∧ Str.Encodable generatedAt ∧ record.TextsEncodable := by
  obtain ⟨detail, -, hdocument⟩ := Except.bind_eq_ok.mp h
  cases hdocument
  have hbool (b : Bool) : (Json.bool b).encodable = true := rfl
  have hnull : Json.null.encodable = true := rfl
  simp only [hget, Option.getD_some, encodable_field, encodable_str, hbool, hnull, encodable_optionalJson,
    encodable_obj_nil, serviceHealth, true_and, and_true]
  constructor
  · rintro ⟨hname, hstamp, hdocument, hhash, hprevious, hchecks⟩
    exact ⟨hname, hstamp, (encodable_specJson hname).mp hdocument, hhash, hprevious, hchecks⟩
  · rintro ⟨hname, hstamp, hrecord⟩
    exact ⟨hname, hstamp, (encodable_specJson hname).mpr hrecord.document, hrecord.hash, hrecord.previousHash,
      hrecord.checks⟩

-- The names a topic's answer has are the catalog's.
theorem detail_names {topic : Str} {detail : Fields}
    (h : c.queryTopic [Json.field "topic" (.str topic)] = .ok detail) :
    topic ∈ c.topics ∧ texts detail "providers" = c.providersOf topic ∧
      texts detail "consumers" = c.consumersOf topic := by
  obtain ⟨hasked, hknown, -⟩ := queryTopic_ok_iff.mp ⟨detail, h⟩
  obtain ⟨hproviders, hconsumers⟩ := queryTopic_edges (require_name hasked) h
  exact ⟨hknown, texts_field hproviders, texts_field hconsumers⟩

theorem encodable_topology [TrueDivision] (hnames : ∀ name ∈ c.services.keys, Str.Encodable name)
    (hstamp : Str.Encodable generatedAt) {fleet out : Fields} (h : topology c fleet generatedAt = .ok out) :
    (Json.obj out).encodable = true := by
  obtain ⟨pairs, hpairs, hout⟩ := Except.bind_eq_ok.mp h
  cases hout
  have hempty : EncodablePairs Dict.empty := by simp [EncodablePairs, Dict.keys]
  have hkept : ∀ acc entry acc', entry ∈ elements fleet "topics" → EncodablePairs acc →
      addTopic c acc entry = .ok acc' → EncodablePairs acc' := by
    intro acc entry acc' _ hacc hround
    obtain ⟨detail, hdetail, hround⟩ := Except.bind_eq_ok.mp hround
    cases hround
    obtain ⟨-, hproviders, hconsumers⟩ := detail_names hdetail
    refine encodablePairs_foldl (fun edge hedge => ?_) hacc
    obtain ⟨client, hclient, hmem⟩ := List.mem_flatMap.mp hedge
    obtain ⟨server, hserver, rfl⟩ := List.mem_map.mp hmem
    rw [hproviders] at hclient
    rw [hconsumers] at hserver
    exact ⟨hnames client (mem_keys_of_serviceNames hclient),
      hnames server (mem_keys_of_serviceNames (List.mem_filter.mp hserver).1)⟩
  have hencodable := Except.foldlM_induct hkept hempty hpairs
  have hnull : Json.null.encodable = true := rfl
  have hrate (edge : (Str × Str) × PairCounts) : (if edge.2.invocations = 0 then Json.null
      else .float (TrueDivision.divide edge.2.errors edge.2.invocations)).encodable = true := by
    split <;> rfl
  simp only [encodable_field, encodable_str, encodable_arr, encodable_obj_nil, List.forall_mem_map, topologyEdge,
    encodable_literal, hnull, hrate, List.mem_insertionSort, and_true]
  exact ⟨hstamp, fun edge hedge => hencodable edge.1 (List.mem_map_of_mem hedge)⟩

end Texts

section Contracts

-- The contracts that are published, all of them of registered documents.
def EncodableSpecs (services : Dict Str Service) : Prop :=
  ∀ topic name spec, specOf services topic name = some spec → (Json.obj spec).encodable = true

structure EncodableChannels (acc : Channels) : Prop where
  channels : (Json.obj acc.channels).encodable = true
  operations : (Json.obj acc.operations).encodable = true
  messages : (Json.obj acc.messages).encodable = true

theorem encodable_operation {action : String} {key : Str} (h : Str.Encodable key) :
    (operation action key).encodable = true := by
  simp [operation, encodable_field, encodable_str, encodable_obj_nil, Str.encodable_append, h,
    Str.encodable_ofString]

-- The spec that stands for a topic is one of its consumers', or empty.
theorem encodable_representative {services : Dict Str Service} (h : EncodableSpecs services) (topic : Str)
    (consumers : List Str) : (Json.obj ((presentSpecs services topic consumers).head?.getD [])).encodable = true := by
  cases hhead : (presentSpecs services topic consumers).head? with
  | none => rfl
  | some spec =>
      obtain ⟨name, -, hspec⟩ := List.mem_filterMap.mp (List.mem_filter.mp (List.mem_of_mem_head? hhead)).1
      exact h topic name spec hspec

variable [UnicodeData]

theorem encodable_topicSpec {entry catalogue : Fields} (hentry : (Json.obj entry).encodable = true)
    (hcatalogue : (Json.obj catalogue).encodable = true) : (Json.obj (topicSpec entry catalogue)).encodable = true := by
  have hversion := encodable_text (encodable_getField hentry "version")
  have hschema (key : Str) : (resolveSchema (getField entry key) catalogue).encodable = true :=
    hereditary_resolveSchema hereditary_encodable hcatalogue (encodable_getField hentry key)
  have hmember (p : Prop) [Decidable p] {key : String} {value : Json} (hvalue : value.encodable = true) :
      (Json.obj (if p then [((key : Str), value)] else [])).encodable = true := by
    split
    · exact encodable_obj_cons.mpr ⟨Str.encodable_ofString key, hvalue, rfl⟩
    · rfl
  rw [topicSpec, encodable_append_fields, encodable_append_fields]
  exact ⟨⟨hmember _ (encodable_str.mpr hversion), hmember _ (hschema _)⟩, hmember _ (hschema _)⟩

theorem encodable_specsOf {document : Fields} (h : (Json.obj document).encodable = true) {topic : Str} {spec : Fields}
    (hspec : (specsOf document).get? topic = some spec) : (Json.obj spec).encodable = true := by
  rcases Entries.mem_update ((Dict.mem_entries_iff _ _ _).mpr hspec) with hnil | hmem
  · cases hnil
  · obtain ⟨entry, hentry, heq⟩ := List.mem_map.mp hmem
    cases heq
    exact encodable_topicSpec (hereditary_specEntries hereditary_encodable h .requests entry hentry)
      (hereditary_schemaCatalogue hereditary_encodable h)

theorem encodableSpecs_services {services : Dict Str Service}
    (hholds : ∀ name record, services.get? name = some record → record.HoldsDocument)
    (h : ∀ name record, services.get? name = some record → record.TextsEncodable) : EncodableSpecs services := by
  intro topic name spec hspec
  obtain ⟨record, hget, hstored⟩ := Option.bind_eq_some_iff.mp hspec
  have hspecs := hholds name record hget
  rw [Service.HoldsDocument] at hspecs
  rw [hspecs] at hstored
  split at hstored
  · rename_i hregistered
    exact encodable_specsOf ((h name record hget).document hregistered) hstored
  · cases hstored

variable {c : Catalog} {generatedAt : Str}

theorem encodable_topicEntry {services : Dict Str Service} (hspecs : EncodableSpecs services)
    (hnames : ∀ name ∈ c.services.keys, Str.Encodable name) (htopics : ∀ topic ∈ c.topics, Str.Encodable topic)
    {entry : Fields} {out : Json} (h : topicEntry c services entry = .ok out) : out.encodable = true := by
  obtain ⟨detail, hdetail, hout⟩ := Except.bind_eq_ok.mp h
  cases hout
  obtain ⟨hknown, hproviders, hconsumers⟩ := detail_names hdetail
  have htopic := htopics _ hknown
  have hspec := encodable_representative hspecs (member entry "topic") (c.consumersOf (member entry "topic"))
  have hprovider : ∀ name ∈ c.providersOf (member entry "topic"), Str.Encodable name :=
    fun name hname => hnames name (mem_keys_of_serviceNames hname)
  have hconsumer : ∀ name ∈ c.consumersOf (member entry "topic"), Str.Encodable name :=
    fun name hname => hnames name (mem_keys_of_serviceNames hname)
  have hversion : ((Entries.get? ("version" : Str) ((presentSpecs services (member entry "topic")
      (c.consumersOf (member entry "topic"))).head?.getD [])).getD (.str [])).encodable = true := by
    cases hget : Entries.get? ("version" : Str) _ with
    | none => rfl
    | some value => exact (encodable_obj.mp hspec _ (Entries.mem_of_get? hget)).2
  have hchange : ∀ name ∈ c.consumersOf (member entry "topic"),
      Str.Encodable (name ++ (" changed the contract for " : Str) ++ member entry "topic") := fun name hname =>
    Str.encodable_append.mpr ⟨Str.encodable_append.mpr ⟨hconsumer name hname, Str.encodable_ofString _⟩, htopic⟩
  have hbool (b : Bool) : (Json.bool b).encodable = true := rfl
  have hnull : Json.null.encodable = true := rfl
  simp only [hproviders, hconsumers, encodable_field, encodable_str, hbool, hnull, encodable_obj_nil, encodable_arr,
    List.forall_mem_map, topicChanges, List.mem_filter, encodable_literal, true_and, and_true]
  exact ⟨htopic, hversion, hconsumer, hprovider, encodable_getField hspec _, encodable_getField hspec _,
    encodable_getField hspec _, fun name hname => hchange name hname.1⟩

theorem encodable_topics {services : Dict Str Service} {everConsumed : Finset Str} (hspecs : EncodableSpecs services)
    (hnames : ∀ name ∈ c.services.keys, Str.Encodable name) (htopics : ∀ topic ∈ c.topics, Str.Encodable topic)
    (hconsumed : everConsumed ⊆ c.topics) (hstamp : Str.Encodable generatedAt) {fleet out : Fields}
    (h : topics c fleet services everConsumed generatedAt = .ok out) : (Json.obj out).encodable = true := by
  obtain ⟨entries, hentries, hout⟩ := Except.bind_eq_ok.mp h
  cases hout
  have hactive : ∀ entry ∈ entries, entry.encodable = true := by
    intro entry hentry
    obtain ⟨asked, -, hasked⟩ := Except.mem_of_mapM_eq_ok hentries hentry
    exact encodable_topicEntry hspecs hnames htopics hasked
  have hremoved : ∀ topic ∈ removedTopics services everConsumed, Str.Encodable topic := by
    intro topic htopic
    rw [removedTopics, List.mem_filter, Finset.mem_sort] at htopic
    exact htopics topic (hconsumed htopic.1)
  simp only [encodable_field, encodable_str, encodable_arr, encodable_strings, encodable_obj_nil, and_true]
  exact ⟨hstamp, hactive, hremoved⟩

-- Every topic is in the document, as an active or as a removed one.
theorem encodable_of_topics {services : Dict Str Service} {everConsumed : Finset Str} {fleet out : Fields}
    (h : topics c fleet services everConsumed generatedAt = .ok out) (hout : (Json.obj out).encodable = true) :
    ∀ entry ∈ elements fleet "topics", Str.Encodable (member entry "topic") := by
  intro entry hentry
  obtain ⟨entries, hentries, heq⟩ := Except.bind_eq_ok.mp h
  cases heq
  simp only [encodable_field, encodable_arr, encodable_strings] at hout
  obtain ⟨-, hactive, hremoved, -⟩ := hout
  by_cases hgone : member entry "topic" ∈ removedTopics services everConsumed
  · exact hremoved _ hgone
  · have hkept : entry ∈ (elements fleet "topics").filter fun entry =>
        member entry "topic" ∉ removedTopics services everConsumed :=
      List.mem_filter.mpr ⟨hentry, decide_eq_true hgone⟩
    obtain ⟨document, hdocument, hasked⟩ := exists_of_mem_left (Except.mapM_eq_ok.mp hentries) hkept
    obtain ⟨detail, -, hshown⟩ := Except.bind_eq_ok.mp hasked
    cases hshown
    have hfields := hactive _ hdocument
    simp only [encodable_field, encodable_str] at hfields
    exact hfields.1

theorem encodableChannels_addChannel {services : Dict Str Service} (hspecs : EncodableSpecs services)
    (htopics : ∀ topic ∈ c.topics, Str.Encodable topic) {acc acc' : Channels} (hacc : EncodableChannels acc)
    {entry : Fields} (h : addChannel c services acc entry = .ok acc') : EncodableChannels acc' := by
  unfold addChannel at h
  dsimp only at h
  split at h
  · cases h
    exact hacc
  · obtain ⟨detail, hdetail, hround⟩ := Except.bind_eq_ok.mp h
    cases hround
    have htopic := htopics _ (detail_names hdetail).1
    have hspec := encodable_representative hspecs (member entry "topic") (texts detail "consumers")
    have hkey := encodable_channelKey htopic
    have hsuffix (text : String) : Str.Encodable (channelKey (member entry "topic") ++ (text : Str)) :=
      Str.encodable_append.mpr ⟨hkey, Str.encodable_ofString text⟩
    have hpayload := encodable_orElse
      (encodable_orElse (encodable_getField hspec "requestSchema") (encodable_getField hspec "responseSchema"))
      (show (Json.obj [Json.field "type" (.str "object")]).encodable = true by
        simp [encodable_field, encodable_literal, encodable_obj_nil])
    have hreceived (p : Prop) [Decidable p] : (Json.obj (if p then acc.operations
        else Entries.set (channelKey (member entry "topic") ++ ("_receive" : Str))
          (operation "receive" (channelKey (member entry "topic"))) acc.operations)).encodable = true := by
      split
      · exact hacc.operations
      · exact encodable_set hacc.operations (hsuffix _) (encodable_operation hkey)
    refine ⟨encodable_set hacc.channels hkey ?_, ?_, encodable_set hacc.messages (hsuffix _) ?_⟩
    · simp [encodable_str, encodable_obj_cons, encodable_obj_nil, Str.encodable_append, htopic, hkey,
        Str.encodable_ofString]
    · dsimp only
      split
      · exact hreceived _
      · exact encodable_set (hreceived _) (hsuffix _) (encodable_operation hkey)
    · simp only [encodable_field, encodable_str, encodable_obj_nil, and_true]
      exact ⟨htopic, hpayload⟩

theorem encodable_asyncapi {services : Dict Str Service} (hspecs : EncodableSpecs services)
    (htopics : ∀ topic ∈ c.topics, Str.Encodable topic) (hstamp : Str.Encodable generatedAt) {fleet out : Fields}
    (h : asyncapi c fleet services generatedAt = .ok out) : (Json.obj out).encodable = true := by
  obtain ⟨acc, hacc, hout⟩ := Except.bind_eq_ok.mp h
  cases hout
  have hkept : ∀ acc entry acc', entry ∈ elements fleet "topics" → EncodableChannels acc →
      addChannel c services acc entry = .ok acc' → EncodableChannels acc' :=
    fun _ _ _ _ hchannels hround => encodableChannels_addChannel hspecs htopics hchannels hround
  have hchannels := Except.foldlM_induct hkept ⟨encodable_obj_nil, encodable_obj_nil, encodable_obj_nil⟩ hacc
  simp [encodable_field, encodable_str, encodable_obj_nil, Str.encodable_append, Str.encodable_ofString, hstamp,
    hchannels.channels, hchannels.operations, hchannels.messages]

end Contracts

section Publishing

theorem get?_of_serviceOrNew {c : Catalog} {p : Service → Prop} (h : ∀ name, p (c.serviceOrNew name)) {name : Str}
    {record : Service} (hget : c.services.get? name = some record) : p record := by
  have hrecord := h name
  rwa [Catalog.serviceOrNew, hget] at hrecord

variable [UnicodeData] [Calendar] [TrueDivision] {c : Catalog} {sources : List ServiceEndpoint} {generatedAt : Str}
  {artifacts : Artifacts}

-- The document of a service, as the artifacts have it.
theorem serviceDocument_of_get? {fleet : Fields} (hnamed : ∀ name, (c.serviceOrNew name).name = name)
    (hfleet : c.queryFleet = .ok fleet) (h : Projects c fleet sources generatedAt artifacts) {entry : Str × Fields}
    (hentry : entry ∈ artifacts.services.entries) : ∃ record, c.services.get? entry.1 = some record ∧
      serviceDocument c entry.1 c.services generatedAt = .ok entry.2 := by
  obtain ⟨hkeys, hdocuments⟩ := h.document hnamed hfleet
  have hmem : entry.1 ∈ artifacts.services.keys := List.mem_map_of_mem hentry
  rw [hkeys, Dict.mem_keys_iff, Option.isSome_iff_exists] at hmem
  obtain ⟨record, hrecord⟩ := hmem
  have hdocument := hdocuments entry.1 entry.2 ((Dict.mem_entries_iff _ _ _).mp hentry)
  rw [snapshotServices_eq hnamed] at hdocument
  exact ⟨record, hrecord, hdocument⟩

theorem textsEncodable_of_documents {fleet : Fields} (hnamed : ∀ name, (c.serviceOrNew name).name = name)
    (hfleet : c.queryFleet = .ok fleet) (h : Projects c fleet sources generatedAt artifacts)
    (hdocuments : EncodableDocuments artifacts) : c.TextsEncodable sources generatedAt := by
  have hroot : ∀ entry ∈ rootDocuments artifacts, (Json.obj entry.2).encodable = true :=
    fun entry hentry => hdocuments entry (List.mem_append_left _ hentry)
  simp only [rootDocuments, List.forall_mem_cons] at hroot
  obtain ⟨hmanifest, -, htopics, husage, -⟩ := hroot
  obtain ⟨hstamp, hlisted⟩ := (encodable_manifest h.manifest).mp hmanifest
  have hservices : ∀ name ∈ c.services.keys, Str.Encodable name ∧
      ∀ urls, (endpoints sources).get? name = some urls → Str.Encodable urls.1 ∧ Str.Encodable urls.2 := by
    rw [← fleet_services hnamed hfleet, List.forall_mem_map]
    exact hlisted
  refine ⟨hstamp, fun name hname => (hservices name hname).1, fun name hname => (hservices name hname).2, ?_, ?_, ?_⟩
  · intro topic htopic
    have hmem : topic ∈ (elements fleet "topics").map fun entry => member entry "topic" := by
      rw [fleet_topics hfleet, Finset.mem_sort]
      exact htopic
    obtain ⟨entry, hentry, rfl⟩ := List.mem_map.mp hmem
    exact encodable_of_topics h.topics htopics entry hentry
  · rw [h.usage, encodable_usage] at husage
    exact fun event hevent => (husage.2 event hevent).2.2
  · intro name record hget
    have hkey : name ∈ artifacts.services.keys := by
      rw [(h.document hnamed hfleet).1, Dict.mem_keys_iff, hget]
      rfl
    obtain ⟨entry, hentry, rfl⟩ := List.mem_map.mp hkey
    obtain ⟨record', hget', hdocument⟩ := serviceDocument_of_get? hnamed hfleet h hentry
    rw [hget] at hget'
    cases hget'
    exact ((encodable_serviceDocument hget hdocument).mp (hdocuments entry (List.mem_append_right _ hentry))).2.2

theorem documents_of_textsEncodable {fleet : Fields} (hnamed : ∀ name, (c.serviceOrNew name).name = name)
    (hknown : c.Known) (hholds : ∀ name, (c.serviceOrNew name).HoldsDocument) (hfleet : c.queryFleet = .ok fleet)
    (h : Projects c fleet sources generatedAt artifacts) (htexts : c.TextsEncodable sources generatedAt) :
    EncodableDocuments artifacts := by
  have hspecs : EncodableSpecs c.snapshotServices := by
    rw [snapshotServices_eq hnamed]
    exact encodableSpecs_services (fun name record hget => get?_of_serviceOrNew hholds hget) htexts.services
  intro entry hentry
  rcases List.mem_append.mp hentry with hroot | hservice
  · have hmanifest : (Json.obj artifacts.manifest).encodable = true := by
      rw [encodable_manifest h.manifest]
      refine ⟨htexts.stamp, ?_⟩
      have hservices : ∀ name ∈ c.services.keys, Str.Encodable name ∧
          ∀ urls, (endpoints sources).get? name = some urls → Str.Encodable urls.1 ∧ Str.Encodable urls.2 :=
        fun name hname => ⟨htexts.names name hname, htexts.links name hname⟩
      rw [← fleet_services hnamed hfleet, List.forall_mem_map] at hservices
      exact hservices
    have htopology := encodable_topology htexts.names htexts.stamp h.topology
    have htopics := encodable_topics hspecs htexts.names htexts.topics hknown.everConsumed htexts.stamp h.topics
    have husage : (Json.obj artifacts.usage).encodable = true := by
      rw [h.usage, encodable_usage]
      exact ⟨htexts.stamp, fun event hevent => ⟨htexts.topics _ (hknown.topics event hevent),
        htexts.names _ (hknown.services event hevent), htexts.statuses event hevent⟩⟩
    have hasyncapi := encodable_asyncapi hspecs htexts.topics htexts.stamp h.asyncapi
    have hannotations : (Json.obj artifacts.annotations).encodable = true := by
      rw [h.annotations, encodable_annotations]
      exact htexts.stamp
    simp only [rootDocuments, List.mem_cons, List.not_mem_nil, or_false] at hroot
    rcases hroot with rfl | rfl | rfl | rfl | rfl | rfl
    · exact hmanifest
    · exact htopology
    · exact htopics
    · exact husage
    · exact hasyncapi
    · exact hannotations
  · obtain ⟨record, hget, hdocument⟩ := serviceDocument_of_get? hnamed hfleet h hservice
    rw [encodable_serviceDocument hget hdocument]
    refine ⟨htexts.names entry.1 ?_, htexts.stamp, htexts.services entry.1 record hget⟩
    rw [Dict.mem_keys_iff, hget]
    rfl

-- What it takes to publish a catalog.
structure Catalog.Publishable (c : Catalog) (sources : List ServiceEndpoint) (generatedAt : Str) : Prop where
  buildable : c.Buildable
  names : ∀ name ∈ c.services.keys, separator ∉ name ∧ (0 : CodePoint) ∉ name
  texts : c.TextsEncodable sources generatedAt

-- For every state that posts lead to, every output directory and every key prefix.
theorem publishes_iff (posts : List Post) (directory : Location) (keyPrefix : Str) (sources : List ServiceEndpoint)
    (generatedAt : Str) :
    (PublishesAt (fun name => directory ++ [name]) (DirectFile directory) (Catalog.empty.run posts).services.keys
        (filesOf directory (Catalog.empty.run posts) sources generatedAt) ∧
      PublishesAt ((S3ArtifactStore.withPrefix keyPrefix).root ++ ·) (DirectKey (.withPrefix keyPrefix))
        (Catalog.empty.run posts).services.keys
        (objectsOf (.withPrefix keyPrefix) (Catalog.empty.run posts) sources generatedAt)) ↔
      (Catalog.empty.run posts).Publishable sources generatedAt := by
  have hnamed : ∀ name, ((Catalog.empty.run posts).serviceOrNew name).name = name := name_run (fun _ => rfl) posts
  have hknown := known_run known_empty posts
  have hholds := holdsDocument_run (c := Catalog.empty) (fun _ => rfl) posts
  generalize Catalog.empty.run posts = c at hnamed hknown hholds
  constructor
  · rintro ⟨hfiles, hobjects⟩
    obtain ⟨artifacts, hbuild, hdocuments, hseparators⟩ := of_publishes_objects hobjects
    obtain ⟨fleet, hfleet, hprojects⟩ := buildArtifacts_eq_ok.mp hbuild
    have hnuls := of_publishes_files hseparators hfiles
    exact ⟨(buildArtifacts_ok_iff hnamed).mp ⟨artifacts, hbuild⟩,
      fun name hname => ⟨hseparators name hname, hnuls name hname⟩,
      textsEncodable_of_documents hnamed hfleet hprojects hdocuments⟩
  · rintro ⟨hbuildable, hnames, htexts⟩
    obtain ⟨artifacts, hbuild⟩ := (buildArtifacts_ok_iff hnamed).mpr hbuildable
    obtain ⟨fleet, hfleet, hprojects⟩ := buildArtifacts_eq_ok.mp hbuild
    have hdocuments := documents_of_textsEncodable hnamed hknown hholds hfleet hprojects htexts
    have hkeys := (hprojects.document hnamed hfleet).1
    rw [← hkeys] at hnames ⊢
    exact ⟨publishes_files hbuild hdocuments hnames,
      publishes_objects hbuild hdocuments fun name hname => (hnames name hname).1⟩

end Publishing

section Example

-- A service that is named after the manifest.
def manifestBody : Fields := [field "service" (.str "../manifest")]

-- The document of the service takes the place of the manifest.
theorem manifestBody_overwrites :
    letI := UnicodeData.ascii
    letI := noCalendar
    letI := wholeDivision
    (filesOf ["out"] (Catalog.empty.run [⟨.register, manifestBody⟩]) [] "now").2.keys =
        rootNames.map (fun name => [("out" : Str), name]) ∧
      ¬PublishesAt (fun name => [("out" : Str)] ++ [name]) (DirectFile ["out"])
        (Catalog.empty.run [⟨.register, manifestBody⟩]).services.keys
        (filesOf ["out"] (Catalog.empty.run [⟨.register, manifestBody⟩]) [] "now") := by
  let _ := UnicodeData.ascii
  let _ := noCalendar
  let _ := wholeDivision
  have hfiles : (filesOf ["out"] (Catalog.empty.run [⟨.register, manifestBody⟩]) [] "now").2.keys =
      rootNames.map fun name => [("out" : Str), name] := by
    decide +kernel
  refine ⟨hfiles, ?_⟩
  rintro ⟨artifacts, -, hkeys, place, hentries, -⟩
  have hnames : (Catalog.empty.run [⟨.register, manifestBody⟩]).services.keys = [("../manifest" : Str)] := by
    decide +kernel
  have hlength := congrArg List.length hfiles
  have hone := congrArg List.length (hkeys.trans hnames)
  rw [Dict.keys, Entries.keys, hentries] at hlength
  rw [Dict.keys, Entries.keys, List.length_map] at hone
  simp only [rootDocuments, rootNames, List.length_map, List.length_append, List.length_cons, List.length_nil, hone]
    at hlength
  omega

end Example

end Benzene.Mesh
