import Benzene.Mesh.Graph
import Benzene.Mesh.Query
import Benzene.Mesh.Sound

namespace Benzene.Mesh

open Benzene.Data

section Decoding

theorem mapM_map_ok {α β ε : Type} {f : α → β} {g : β → Except ε α} {items : List α}
    (h : ∀ item ∈ items, g (f item) = .ok item) : (items.map f).mapM g = .ok items := by
  rw [Except.mapM_eq_ok, List.forall₂_map_left_iff, List.forall₂_same]
  exact h

theorem fieldOr_some {fields : Fields} {key : Str} {value : Json}
    (h : Entries.get? key fields = some value) (default : Json) :
    fieldOr (.obj fields) key default = .ok value := by
  simp [fieldOr, h]

theorem item_some {fields : Fields} {key : Str} {value : Json}
    (h : Entries.get? key fields = some value) : item (.obj fields) key = .ok value := by
  simp [item, h]

theorem asOptionalText_optionalJson (value : Option Str) :
    asOptionalText (optionalJson value) = .ok value := by
  cases value <;> rfl

theorem textList_strings {fields : Fields} {key : Str} {texts : List Str}
    (h : Entries.get? key fields = some (strings texts)) : textList (.obj fields) key = .ok texts := by
  have htexts : (texts.map Json.str).mapM asText = .ok texts := mapM_map_ok fun _ _ => rfl
  simp only [textList, fieldOr_some h, strings, Json.iter, raising, Except.mapError, bind, Except.bind]
  exact htexts

theorem objectDict_objects (entries : Dict Str Fields) : objectDict (objects entries) = .ok entries := by
  have hdecoded : (Entries.mapValues Json.obj entries.entries).mapM
      (fun entry => do return (entry.1, ← asFields entry.2)) = .ok entries.entries :=
    mapM_map_ok fun _ _ => rfl
  simp only [objectDict, objects, asFields, bind, Except.bind] at hdecoded ⊢
  rw [hdecoded]
  exact congrArg _ entries.ofEntries_entries

theorem durationMs_timed {event : Event} (h : event.Timed) :
    durationMs (.float event.durationMs) = .ok event.durationMs := by
  obtain ⟨d, hd, hpositive⟩ := h
  rw [hd]
  simp [durationMs, hpositive]

end Decoding

section Described

-- An entry of a complete snapshot, field by field, and what it stands for.
def Instance.DescribedBy (entry : Json) (held : Str × Instance) : Prop :=
  ∃ fields, entry = .obj fields ∧
    Entries.get? ("instanceId" : Str) fields = some (.str held.1) ∧
    Entries.get? ("healthy" : Str) fields = some (.bool held.2.healthy) ∧
    Entries.get? ("registrationHash" : Str) fields = some held.2.registrationHash ∧
    Entries.get? ("serviceVersion" : Str) fields = some (optionalJson held.2.serviceVersion) ∧
    Entries.get? ("healthChecks" : Str) fields = some (.obj held.2.healthChecks)

def Service.DescribedBy (entry : Json) (record : Service) : Prop :=
  ∃ fields instances, entry = .obj fields ∧
    Entries.get? ("name" : Str) fields = some (.str record.name) ∧
    Entries.get? ("registered" : Str) fields = some (.bool record.registered) ∧
    Entries.get? ("registrationHash" : Str) fields = some (optionalJson record.registrationHash) ∧
    Entries.get? ("previousRegistrationHash" : Str) fields =
      some (optionalJson record.previousRegistrationHash) ∧
    Entries.get? ("consumed" : Str) fields = some (strings record.consumed) ∧
    Entries.get? ("produced" : Str) fields = some (strings record.produced) ∧
    Entries.get? ("known" : Str) fields = some (strings record.known) ∧
    Entries.get? ("document" : Str) fields = some (.obj record.document) ∧
    Entries.get? ("topicSpecs" : Str) fields = some (objects record.topicSpecs) ∧
    Entries.get? ("previousTopicSpecs" : Str) fields = some (objects record.previousTopicSpecs) ∧
    Entries.get? ("reportedIssues" : Str) fields = some (.bool record.reportedIssues) ∧
    Entries.get? ("instances" : Str) fields = some (.arr instances) ∧
    List.Forall₂ Instance.DescribedBy instances record.instances.entries

def Event.DescribedBy (entry : Json) (event : Event) : Prop :=
  ∃ fields, entry = .obj fields ∧
    Entries.get? ("traceId" : Str) fields = some (.str event.traceId) ∧
    Entries.get? ("spanId" : Str) fields = some (.str event.spanId) ∧
    Entries.get? ("parentSpanId" : Str) fields = some event.parentSpanId ∧
    Entries.get? ("service" : Str) fields = some (.str event.service) ∧
    Entries.get? ("topic" : Str) fields = some (.str event.topic) ∧
    Entries.get? ("status" : Str) fields = some (.str event.status) ∧
    Entries.get? ("startedAt" : Str) fields = some event.startedAt ∧
    Entries.get? ("durationMs" : Str) fields = some (.float event.durationMs) ∧ event.Timed

-- A complete snapshot of the current version, and the catalog it describes.
-- The span index is not written: it is that of the events.
structure Catalog.DescribedBy (snapshot : Fields) (c : Catalog) : Prop where
  version : Json.same (Json.getField snapshot "version") (.int snapshotVersion) = true
  services : ∃ entries, Entries.get? ("services" : Str) snapshot = some (.arr entries) ∧
    List.Forall₂ Service.DescribedBy entries c.services.values
  named : ∀ entry ∈ c.services.entries, entry.2.name = entry.1
  topics : ∃ texts, Entries.get? ("topics" : Str) snapshot = some (strings texts) ∧
    c.topics = texts.toFinset
  everConsumed : ∃ texts, Entries.get? ("everConsumed" : Str) snapshot = some (strings texts) ∧
    c.everConsumed = texts.toFinset
  events : ∃ entries, Entries.get? ("events" : Str) snapshot = some (.arr entries) ∧
    List.Forall₂ Event.DescribedBy entries c.events
  spans : c.spanOwner = Dict.ofEntries (c.events.map fun event => (event.spanId, event.service))
  issues : Entries.get? ("issues" : Str) snapshot = some (objects c.issues)

variable [UnicodeData]

theorem restoreInstance_described {entry : Json} {held : Str × Instance}
    (h : Instance.DescribedBy entry held) : restoreInstance entry = .ok held := by
  obtain ⟨fields, rfl, hid, hhealthy, hhash, hversion, hchecks⟩ := h
  simp only [restoreInstance, item_some hid, fieldOr_some hhealthy, fieldOr_some hhash,
    fieldOr_some hversion, fieldOr_some hchecks, asOptionalText_optionalJson, asFields, Json.truthy,
    Json.text, bind, Except.bind, pure, Except.pure]

theorem restoreService_described {entry : Json} {record : Service}
    (h : Service.DescribedBy entry record) : restoreService entry = .ok record := by
  obtain ⟨fields, instances, rfl, hname, hregistered, hhash, hprevious, hconsumed, hproduced, hknown,
    hdocument, hspecs, hpreviousSpecs, hreported, hlist, hinstances⟩ := h
  have hdecoded : instances.mapM restoreInstance = .ok record.instances.entries :=
    Except.mapM_eq_ok.mpr (hinstances.imp fun _ _ h => restoreInstance_described h)
  simp only [restoreService, item_some hname, fieldOr_some hlist, Json.iter, raising,
    Except.mapError, fieldOr_some hregistered, fieldOr_some hhash, asOptionalText_optionalJson,
    fieldOr_some hprevious, textList_strings hconsumed, textList_strings hproduced,
    textList_strings hknown, fieldOr_some hdocument, asFields, fieldOr_some hspecs,
    fieldOr_some hpreviousSpecs, objectDict_objects, fieldOr_some hreported, hdecoded,
    Json.truthy, Json.text, bind, Except.bind, pure, Except.pure, Dict.ofEntries_entries]

theorem decodeEvent_described {entry : Json} {event : Event} (h : Event.DescribedBy entry event) :
    decodeEvent entry = .ok event := by
  obtain ⟨fields, rfl, htrace, hspan, hparent, hservice, htopic, hstatus, hstarted, hlast, htimed⟩ := h
  simp only [decodeEvent, textField, Json.getField, htrace, hspan, hparent, hservice, htopic, hstatus,
    hstarted, hlast, Option.getD_some, durationMs_timed htimed, Json.text, bind, Except.bind, pure,
    Except.pure]

-- A complete snapshot restores to the catalog it describes.
theorem restore_described {snapshot : Fields} {c : Catalog} (h : c.DescribedBy snapshot)
    (other : Catalog) : other.restore snapshot = .ok c := by
  obtain ⟨entries, hservices, hrecords⟩ := h.services
  obtain ⟨texts, htopics, htopicSet⟩ := h.topics
  obtain ⟨consumed, hconsumed, hconsumedSet⟩ := h.everConsumed
  obtain ⟨rawEvents, hevents, hdecodes⟩ := h.events
  have hrestored : entries.mapM restoreService = .ok c.services.values :=
    Except.mapM_eq_ok.mpr (hrecords.imp fun _ _ h => restoreService_described h)
  have hdecoded : rawEvents.mapM decodeEvent = .ok c.events :=
    Except.mapM_eq_ok.mpr (hdecodes.imp fun _ _ h => decodeEvent_described h)
  have hnamed : c.services.values.map (fun record => (record.name, record)) = c.services.entries := by
    unfold Dict.values
    rw [List.map_map]
    conv_rhs => rw [← List.map_id c.services.entries]
    refine List.map_congr_left fun entry hentry => ?_
    simp [h.named entry hentry]
  simp only [Catalog.restore, h.version, Bool.not_true, Bool.false_eq_true, if_false,
    fieldOr_some hservices, Json.iter, raising, Except.mapError, hrestored, textList_strings htopics,
    textList_strings hconsumed, fieldOr_some hevents, hdecoded, fieldOr_some h.issues,
    objectDict_objects, bind, Except.bind, pure, Except.pure, hnamed, Dict.ofEntries_entries,
    ← htopicSet, ← hconsumedSet, ← h.spans]

end Described

section Restoring

-- What a restored catalog relies on: names and keys agree, durations are
-- numbers, and the span index is that of the events.
structure Catalog.Consistent (c : Catalog) : Prop where
  named : ∀ entry ∈ c.services.entries, entry.2.name = entry.1
  timed : ∀ event ∈ c.events, event.Timed
  spans : c.spanOwner = Dict.ofEntries (c.events.map fun event => (event.spanId, event.service))

theorem describedBy_instance (held : Str × Instance) :
    Instance.DescribedBy (held.2.snapshot held.1) held := by
  refine ⟨_, rfl, ?_⟩
  simp [Json.field]

theorem describedBy_service (record : Service) : Service.DescribedBy record.snapshot record := by
  refine ⟨_, record.instances.entries.map fun entry => entry.2.snapshot entry.1, rfl, ?_⟩
  simp [Json.field, List.forall₂_map_left_iff, List.forall₂_same, describedBy_instance]

theorem describedBy_event {event : Event} (h : event.Timed) :
    Event.DescribedBy event.snapshot event := by
  refine ⟨_, rfl, ?_⟩
  simp [Json.field, h]

-- What a collector writes is complete, and describes the collector's catalog.
theorem describedBy_snapshot {c : Catalog} (h : c.Consistent) : c.DescribedBy c.snapshot where
  version := by simp [Catalog.snapshot, Json.getField, Json.field, Json.same]
  services := by
    refine ⟨c.services.values.map Service.snapshot, by simp [Catalog.snapshot, Json.field], ?_⟩
    rw [List.forall₂_map_left_iff, List.forall₂_same]
    exact fun record _ => describedBy_service record
  named := h.named
  topics := ⟨c.topics.sort (· ≤ ·), by simp [Catalog.snapshot, Json.field], by simp⟩
  everConsumed := ⟨c.everConsumed.sort (· ≤ ·), by simp [Catalog.snapshot, Json.field], by simp⟩
  events := by
    refine ⟨c.events.map Event.snapshot, by simp [Catalog.snapshot, Json.field], ?_⟩
    rw [List.forall₂_map_left_iff, List.forall₂_same]
    exact fun event hevent => describedBy_event (h.timed event hevent)
  spans := h.spans
  issues := by simp [Catalog.snapshot, Json.field]

theorem restore_snapshot [UnicodeData] {c : Catalog} (h : c.Consistent) (other : Catalog) :
    other.restore c.snapshot = .ok c :=
  restore_described (describedBy_snapshot h) other

end Restoring

section Consistency

theorem consistent_empty : Catalog.empty.Consistent := by
  refine ⟨?_, ?_, rfl⟩ <;> simp [Catalog.empty]

-- The part of it that the events alone decide.
structure Catalog.Indexed (c : Catalog) : Prop where
  timed : ∀ event ∈ c.events, event.Timed
  spans : c.spanOwner = Dict.ofEntries (c.events.map fun event => (event.spanId, event.service))

theorem Catalog.Indexed.observe {c : Catalog} (h : c.Indexed) {event : Event} (htimed : event.Timed) :
    (c.observe event).Indexed := by
  constructor
  · intro other hother
    rcases List.mem_append.mp hother with hold | hnew
    · exact h.timed other hold
    · rw [List.mem_singleton.mp hnew]
      exact htimed
  · simp only [Catalog.observe, h.spans, List.map_append, List.map_cons, List.map_nil]
    exact (Dict.ofEntries_append_singleton _ _ _).symm

theorem indexed_updateService (name : Str) (f : Service → Service) :
    Py.Preserves Catalog.Indexed (updateService name f) :=
  .modify fun _ hc => ⟨hc.timed, hc.spans⟩

variable [UnicodeData]

theorem timed_decodeEvent {raw : Json} {event : Event} (h : decodeEvent raw = .ok event) :
    event.Timed := by
  cases raw with
  | obj fields =>
      obtain ⟨duration, hduration, h⟩ := Except.bind_eq_ok.mp h
      cases h
      exact durationMs_nonneg hduration
  | _ => cases h

theorem indexed_ingestEvent (raw : Json) : Py.Preserves Catalog.Indexed (ingestEvent raw) := by
  intro c hc
  cases hdecode : decodeEvent raw with
  | error error =>
      rw [ingestEvent_error hdecode]
      exact hc
  | ok event =>
      have hobserved := hc.observe (timed_decodeEvent hdecode)
      rw [ingestEvent_ok hdecode]
      exact ⟨hobserved.timed, hobserved.spans⟩

theorem indexed_ingest {c : Catalog} (h : c.Indexed) (post : Post) : (c.ingest post).Indexed := by
  obtain ⟨feed, body⟩ := post
  cases feed with
  | register => exact Py.Preserves.bind (.lift _) (fun name => .bind (.modify fun _ hc => ⟨hc.timed, hc.spans⟩)
      fun _ => .pure _) c h
  | heartbeat => exact Py.Preserves.bind (.lift _) (fun name => .bind (indexed_updateService name id) fun _ =>
      .bind (.lift _) fun _ => .bind (.lift _) fun _ => .bind (indexed_updateService name _) fun _ => .pure _) c h
  | traces => exact Py.Preserves.bind (.lift _) (fun _ => .bind (.mapEach fun raw _ => indexed_ingestEvent raw)
      fun _ => .pure _) c h
  | issues => exact Py.Preserves.bind (.lift _) (fun name => .bind (indexed_updateService name _) fun _ =>
      .bind (.lift _) fun _ => .bind (fun _ hc => ⟨hc.timed, hc.spans⟩) fun _ => .pure _) c h

theorem indexed_run {c : Catalog} (h : c.Indexed) (posts : List Post) : (c.run posts).Indexed := by
  induction posts generalizing c with
  | nil => exact h
  | cons post posts ih => exact ih (indexed_ingest h post)

theorem consistent_run (posts : List Post) : (Catalog.empty.run posts).Consistent := by
  have hindexed := indexed_run ⟨consistent_empty.timed, consistent_empty.spans⟩ posts
  refine ⟨fun entry hentry => ?_, hindexed.timed, hindexed.spans⟩
  have hname := name_run (c := Catalog.empty) (fun _ => rfl) posts entry.1
  rw [Catalog.serviceOrNew, (Dict.mem_entries_iff _ _ _).mp hentry] at hname
  exact hname

end Consistency

section Runs

-- The text a store keeps of the catalog, and the catalog of a fresh collector
-- over a store with that text. A text that is no object is no snapshot.
def Catalog.saved (c : Catalog) : Str := Json.dumps (.obj c.snapshot)

variable [UnicodeData]

def Catalog.load (text : Str) : Except RestoreError Catalog :=
  match Json.loads text with
  | some (.obj snapshot) => Catalog.empty.restore snapshot
  | _ => .ok Catalog.empty

-- The two answer alike, now and after any later posts.
structure Alike [Calendar] (c d : Catalog) : Prop where
  queries : ∀ later kind body, (c.run later).query kind body = (d.run later).query kind body
  snapshots : ∀ later, (c.run later).snapshot = (d.run later).snapshot
  outcomes : ∀ later (post : Post),
    (post.feed.ingest post.body (c.run later)).1 = (post.feed.ingest post.body (d.run later)).1

def Restores [Calendar] (c : Catalog) : Prop :=
  ∃ restored, Catalog.load c.saved = .ok restored ∧ Alike restored c

-- The text of the snapshot is read back as it was written.
theorem load_saved {posts : List Post} (hposts : ∀ post ∈ posts, Json.WellFormedObject post.body) :
    Catalog.load (Catalog.empty.run posts).saved = .ok (Catalog.empty.run posts) := by
  have htext : Json.loads (Catalog.empty.run posts).saved =
      some (.obj (Catalog.empty.run posts).snapshot) :=
    Json.loads_dumps (wellFormed_catalog (sound_run sound_empty hposts))
  rw [Catalog.load, htext]
  exact restore_snapshot (consistent_run posts) Catalog.empty

-- A collector restored from its snapshot is the collector it was taken from.
theorem run_restores [Calendar] (posts : List Post)
    (hposts : ∀ post ∈ posts, Json.WellFormedObject post.body) :
    Restores (Catalog.empty.run posts) :=
  ⟨Catalog.empty.run posts, load_saved hposts, fun _ _ _ => rfl, fun _ => rfl, fun _ _ => rfl⟩

end Runs

section Example

-- The name of the service is the two halves of a surrogate pair.
def halvesBody : Fields := [Json.field "service" (.str [0xD800, 0xDC00])]

@[reducible] def noCalendar : Calendar := ⟨fun _ => none⟩

theorem halvesBody_not_restores :
    letI := UnicodeData.ascii
    letI := noCalendar
    ¬Restores (Catalog.empty.run [⟨.register, halvesBody⟩]) := by
  let _ := UnicodeData.ascii
  let _ := noCalendar
  rintro ⟨restored, hload, halike⟩
  have hsnapshot : restored.snapshot = (Catalog.empty.run [⟨.register, halvesBody⟩]).snapshot :=
    halike.snapshots []
  have hdiffers : (Catalog.load (Catalog.empty.run [⟨.register, halvesBody⟩]).saved).toOption.map
      Catalog.snapshot ≠ some (Catalog.empty.run [⟨.register, halvesBody⟩]).snapshot := by
    decide +kernel
  rw [hload] at hdiffers
  exact hdiffers (congrArg some hsnapshot)

-- A service, its heartbeat and a traced call on a topic it does not serve.
def fleetPosts : List Post :=
  [⟨.register, [Json.field "service" (.str "billing"),
      Json.field "requests" (.arr [.obj [Json.field "topic" (.str "pay")]])]⟩,
    ⟨.heartbeat, [Json.field "service" (.str "billing"), Json.field "instanceId" (.str "1")]⟩,
    ⟨.traces, [Json.field "events" (.arr [.obj [Json.field "traceId" (.str "t"),
      Json.field "spanId" (.str "s"), Json.field "service" (.str "billing"),
      Json.field "topic" (.str "refund"), Json.field "durationMs" (.int 5)]])]⟩]

theorem fleetPosts_restores :
    letI := UnicodeData.ascii
    letI := noCalendar
    Restores (Catalog.empty.run fleetPosts) := by
  let _ := UnicodeData.ascii
  let _ := noCalendar
  refine run_restores fleetPosts ?_
  simp [fleetPosts, Json.WellFormedObject, Json.WellFormed, Json.WellFormedFields,
    Json.WellFormedItems, Json.field, Str.joined_ofString]

end Example

end Benzene.Mesh
