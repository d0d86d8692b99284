import Benzene.Mesh.Feeds
import Benzene.Mesh.Graph
import Benzene.Mesh.Merge

namespace Benzene.Mesh

open Benzene.Data

section Held

-- An undeclared edge: a service and the topic it was traced on.
abbrev Edge := Str × Str

def driftKey (edge : Edge) : Except PyError Str := driftFingerprint edge.1 edge.2

-- The edge an issue is filed for.
def FiledFor (edge : Edge) (issue : Fields) : Prop :=
  Entries.get? ("classification" : Str) issue = some (.str Classification.contractDrift.text) ∧
    Entries.get? ("service" : Str) issue = some (.str edge.1) ∧
    Entries.get? ("topic" : Str) issue = some (.str edge.2)

instance (edge : Edge) (issue : Fields) : Decidable (FiledFor edge issue) := by
  unfold FiledFor
  infer_instance

-- The collector holds a drift issue for the edge.
def Catalog.HoldsDrift (c : Catalog) (edge : Edge) : Prop :=
  ∃ issue ∈ c.issues.values, FiledFor edge issue

instance (c : Catalog) (edge : Edge) : Decidable (c.HoldsDrift edge) := by
  unfold Catalog.HoldsDrift
  infer_instance

-- The last of the flagged edges that has this fingerprint.
def lastFlagged (flagged : List Edge) (fingerprint : Str) : Option Edge :=
  (flagged.filter fun edge => driftKey edge = .ok fingerprint).getLast?

theorem lastFlagged_append_singleton (flagged : List Edge) (edge : Edge) (fingerprint : Str) :
    lastFlagged (flagged ++ [edge]) fingerprint =
      if driftKey edge = .ok fingerprint then some edge else lastFlagged flagged fingerprint := by
  unfold lastFlagged
  by_cases h : driftKey edge = .ok fingerprint <;> simp [List.filter_append, h]

theorem lastFlagged_append_self {edge : Edge} {fingerprint : Str}
    (h : driftKey edge = .ok fingerprint) (flagged : List Edge) :
    lastFlagged (flagged ++ [edge]) fingerprint = some edge := by
  rw [lastFlagged_append_singleton, if_pos h]

theorem mem_of_lastFlagged {flagged : List Edge} {fingerprint : Str} {edge : Edge}
    (h : lastFlagged flagged fingerprint = some edge) :
    edge ∈ flagged ∧ driftKey edge = .ok fingerprint := by
  have hmem := List.mem_of_getLast? h
  rw [List.mem_filter, decide_eq_true_eq] at hmem
  exact hmem

theorem lastFlagged_isSome {flagged : List Edge} {fingerprint : Str} {edge : Edge}
    (hmem : edge ∈ flagged) (hkey : driftKey edge = .ok fingerprint) :
    ∃ last, lastFlagged flagged fingerprint = some last := by
  cases h : lastFlagged flagged fingerprint with
  | some last => exact ⟨last, rfl⟩
  | none =>
      rw [lastFlagged, List.getLast?_eq_none_iff, List.filter_eq_nil_iff] at h
      exact absurd hkey (by simpa using h edge hmem)

-- The issues are exactly those of the edges flagged so far: one for each
-- fingerprint, filed for the last edge that has it.
structure Files (flagged : List Edge) (issues : Dict Str Fields) : Prop where
  stored : StoredIssues issues
  held : ∀ fingerprint, match lastFlagged flagged fingerprint with
    | some edge => ∃ issue, issues.get? fingerprint = some issue ∧ FiledFor edge issue
    | none => issues.get? fingerprint = none

theorem files_empty : Files [] Dict.empty := ⟨storedIssues_empty, fun _ => rfl⟩

end Held

section Filing

-- What a merge needs to know of a drift issue.
structure DriftIssue (edge : Edge) (issue : Fields) : Prop where
  nodup : (Entries.keys issue).Nodup
  filed : FiledFor edge issue
  count : countOf issue = .int 1
  firstSeen : Json.getField issue "firstSeen" = .null
  lastSeen : Json.getField issue "lastSeen" = .null
  exemplars : ∃ exemplars, incomingExemplars issue = .ok exemplars

theorem driftIssue_spec (edge : Edge) (traceId fingerprint : Str) :
    DriftIssue edge (driftIssue edge.1 edge.2 traceId fingerprint) where
  nodup := by simp [driftIssue, Json.field]
  filed := by simp [FiledFor, driftIssue, Json.field]
  count := by simp [countOf, driftIssue, Json.field]
  firstSeen := by simp [Json.getField, driftIssue, Json.field]
  lastSeen := by simp [Json.getField, driftIssue, Json.field]
  exemplars := by simp [incomingExemplars, driftIssue, Json.field, Json.iter]

theorem filedFor_of_get? {edge : Edge} {issue merged : Fields} (h : FiledFor edge issue)
    (hget : ∀ key ∉ aggregatedIssueFields, ∀ value, Entries.get? key issue = some value →
      Entries.get? key merged = some value) : FiledFor edge merged := by
  obtain ⟨hclass, hservice, htopic⟩ := h
  refine ⟨hget _ ?_ _ hclass, hget _ ?_ _ hservice, hget _ ?_ _ htopic⟩ <;>
    simp [aggregatedIssueFields]

variable [UnicodeData]

theorem safeInt_of_driftIssue {edge : Edge} {issue : Fields} (h : DriftIssue edge issue) :
    safeInt (countOf issue) = .ok 1 := by
  rw [h.count]
  rfl

-- Merging a drift issue never raises, and refiles the issue for its edge.
theorem mergeExisting_driftIssue {edge : Edge} {issue existing : Fields}
    (hissue : DriftIssue edge issue) (h : StoredIssue existing) (exemplars : List Json) :
    (mergeExisting issue exemplars existing).1 = .ok () ∧
      FiledFor edge (mergeExisting issue exemplars existing).2 := by
  obtain ⟨⟨n, hn⟩, ⟨held, hheld⟩⟩ := h
  have hwindow (base : Fields) : widenWindow issue base = (.ok (), base) := by
    simp only [widenWindow, widen, hissue.firstSeen, hissue.lastSeen, Py.bind_apply]
  rw [mergeExisting_eq hn hheld, safeInt_of_driftIssue hissue]
  dsimp only
  rw [hwindow]
  refine ⟨rfl, filedFor_of_get? hissue.filed fun key hkey value hvalue => ?_⟩
  rw [get?_aggregate_of_notMem hkey, get?_overwrite hkey _ hissue.nodup, hvalue]
  rfl

theorem newIssue_driftIssue {edge : Edge} {issue : Fields} (hissue : DriftIssue edge issue)
    (exemplars : List Json) :
    ∃ merged, newIssue issue exemplars = .ok merged ∧ FiledFor edge merged := by
  rw [newIssue_eq, safeInt_of_driftIssue hissue]
  refine ⟨_, rfl, filedFor_of_get? hissue.filed fun key hkey value hvalue => ?_⟩
  simp only [aggregatedIssueFields, List.map_cons, List.map_nil, List.mem_cons, List.not_mem_nil,
    or_false, not_or] at hkey
  obtain ⟨hcount, herrors, hexemplars, -, -⟩ := hkey
  rw [get?_mergeErrorDetail herrors, Entries.get?_erase, if_neg (Ne.symm herrors), Entries.get?_set,
    if_neg (Ne.symm hexemplars), Entries.get?_set, if_neg (Ne.symm hcount), hvalue]

-- Filing the drift of an edge adds it to what was flagged.
theorem files_fileDrift {flagged : List Edge} {issues : Dict Str Fields} (h : Files flagged issues)
    {edge : Edge} {fingerprint : Str} (hkey : driftKey edge = .ok fingerprint) (traceId : Str) :
    (fileDrift edge.1 edge.2 traceId issues).1 = .ok () ∧
      Files (flagged ++ [edge]) (fileDrift edge.1 edge.2 traceId issues).2 := by
  have hpreserved := fileDrift_storedIssues edge.1 edge.2 traceId issues h.stored
  have hissue := driftIssue_spec edge traceId fingerprint
  obtain ⟨exemplars, hex⟩ := hissue.exemplars
  -- Whichever way it is merged, the fingerprint now has an issue filed for the edge.
  have hmerged : ∃ merged, fileDrift edge.1 edge.2 traceId issues =
      (.ok (), issues.set fingerprint merged) ∧ FiledFor edge merged := by
    have hfile : fileDrift edge.1 edge.2 traceId issues =
        mergeIssue fingerprint (driftIssue edge.1 edge.2 traceId fingerprint) issues := by
      simp only [fileDrift, Py.bind_apply, Py.lift_apply, show driftFingerprint edge.1 edge.2 =
        .ok fingerprint from hkey]
    rw [hfile]
    cases hget : issues.get? fingerprint with
    | none =>
        obtain ⟨merged, hnew, hfiled⟩ := newIssue_driftIssue hissue exemplars
        exact ⟨merged, by rw [mergeIssue_none hex hget, hnew], hfiled⟩
    | some existing =>
        obtain ⟨hok, hfiled⟩ := mergeExisting_driftIssue hissue (h.stored _ _ hget) exemplars
        exact ⟨_, by rw [mergeIssue_some hex hget, hok], hfiled⟩
  obtain ⟨merged, hfile, hfiled⟩ := hmerged
  rw [hfile] at hpreserved ⊢
  refine ⟨rfl, hpreserved, fun other => ?_⟩
  rw [lastFlagged_append_singleton, hkey, Dict.get?_set]
  by_cases hother : fingerprint = other
  · simpa [hother] using hfiled
  · have hne : (Except.ok fingerprint : Except PyError Str) ≠ .ok other := by simpa using hother
    rw [if_neg hne, if_neg hother]
    exact h.held other

end Filing

section Flagging

-- The owner of the event's parent span, as the collector looks it up.
def TraceEvent.caller (owners : Dict Str Str) (event : TraceEvent) : Str :=
  match event.parentSpanId with
  | some span => if span = [] then [] else (owners.get? span).getD []
  | none => []

-- The edges one event flags against the records of `c`, its own span indexed.
def flaggedBy (c : Catalog) (owners : Dict Str Str) (event : TraceEvent) : List Edge :=
  (if consumerDrift (c.serviceOrNew event.service) event.topic
    then [(event.service, event.topic)] else []) ++
  (if event.caller owners ≠ [] ∧ event.caller owners ≠ event.service ∧
      providerDrift (c.serviceOrNew (event.caller owners)) event.topic
    then [(event.caller owners, event.topic)] else [])

def indexSpan (owners : Dict Str Str) (event : TraceEvent) : Dict Str Str :=
  owners.set event.spanId event.service

-- The edges a sequence of events flags, in order.
def flaggedIn (c : Catalog) : Dict Str Str → List TraceEvent → List Edge
  | _, [] => []
  | owners, event :: rest =>
      flaggedBy c (indexSpan owners event) event ++ flaggedIn c (indexSpan owners event) rest

theorem flaggedIn_append (c : Catalog) (owners : Dict Str Str) (a b : List TraceEvent) :
    flaggedIn c owners (a ++ b) = flaggedIn c owners a ++ flaggedIn c (a.foldl indexSpan owners) b := by
  induction a generalizing owners with
  | nil => rfl
  | cons event rest ih => simp [flaggedIn, ih]

theorem callerName_eq (owners : Dict Str Str) (event : TraceEvent) :
    callerName owners (optionalJson event.parentSpanId) = .ok (event.caller owners) := by
  unfold callerName TraceEvent.caller
  cases event.parentSpanId with
  | none => rfl
  | some span =>
      by_cases h : span = [] <;> simp [optionalJson, Json.truthy, Json.hashable, h]

-- The records are those of `c`, the spans are indexed by `owners`, and the issues
-- are those of the flagged edges.
structure Follows (c : Catalog) (owners : Dict Str Str) (flagged : List Edge) (c' : Catalog) :
    Prop where
  records : ∀ name, c'.serviceOrNew name = c.serviceOrNew name
  owners : c'.spanOwner = owners
  files : Files flagged c'.issues

variable [UnicodeData]

-- One of the two flags of an event: the edge is filed if it drifts.
theorem files_flag {flagged : List Edge} {issues : Dict Str Fields} (h : Files flagged issues)
    (edge : Edge) (traceId : Str) (p : Prop) [Decidable p]
    (hkey : p → ∃ fingerprint, driftKey edge = .ok fingerprint) :
    ((if p then fileDrift edge.1 edge.2 traceId else pure ()) issues).1 = .ok () ∧
      Files (flagged ++ if p then [edge] else [])
        ((if p then fileDrift edge.1 edge.2 traceId else pure ()) issues).2 := by
  by_cases hp : p
  · obtain ⟨fingerprint, hfingerprint⟩ := hkey hp
    rw [if_pos hp, if_pos hp]
    exact files_fileDrift h hfingerprint traceId
  · rw [if_neg hp, if_neg hp, List.append_nil]
    exact ⟨rfl, h⟩

-- An event whose flagged edges can be fingerprinted is ingested without an error.
theorem follows_event {c c' : Catalog} {owners : Dict Str Str} {flagged : List Edge}
    (hname : ∀ name, (c.serviceOrNew name).name = name) (h : Follows c owners flagged c')
    (event : TraceEvent)
    (hkeys : ∀ edge ∈ flaggedBy c (indexSpan owners event) event,
      ∃ fingerprint, driftKey edge = .ok fingerprint) :
    (ingestEvent (.obj event.toPayload) c').1 = .ok () ∧
      Follows c (indexSpan owners event) (flagged ++ flaggedBy c (indexSpan owners event) event)
        (ingestEvent (.obj event.toPayload) c').2 := by
  obtain ⟨decoded, hdecoded, htrace, hspan, hservice, htopic, -, hparent⟩ :=
    decodeEvent_toPayload event
  have hrecords (name : Str) : (c'.observe decoded).serviceOrNew name = c.serviceOrNew name := by
    rw [Catalog.serviceOrNew_observe, h.records]
  have howners : (c'.observe decoded).spanOwner = indexSpan owners event := by
    simp only [Catalog.observe, indexSpan, h.owners, hspan, hservice]
  generalize hcaller : event.caller (indexSpan owners event) = caller at *
  have hflag : (c'.observe decoded).flagDrift decoded =
      ((if consumerDrift (c.serviceOrNew event.service) event.topic
        then fileDrift event.service event.topic event.traceId else pure ()) >>= fun _ =>
      if caller ≠ [] ∧ caller ≠ event.service ∧ providerDrift (c.serviceOrNew caller) event.topic
        then fileDrift caller event.topic event.traceId else pure ()) := by
    rw [flagDrift_eq, howners, hparent, callerName_eq, hcaller]
    simp only [hrecords, flagConsumer_eq, flagProvider_eq, hname, hservice, htopic, htrace]
    congr 1
    funext _
    rw [Py.lift_ok_bind]
    by_cases hforeign : caller ≠ [] ∧ caller ≠ event.service
    · simp only [hforeign, true_and, and_true, ne_eq, not_false_eq_true, if_true]
    · rw [if_neg hforeign, if_neg fun hp => hforeign ⟨hp.1, hp.2.1⟩]
  have hconsumer := files_flag h.files (event.service, event.topic) event.traceId
    (consumerDrift (c.serviceOrNew event.service) event.topic) fun hp => hkeys _ (by
      simp [flaggedBy, hp])
  have hprovider := files_flag hconsumer.2 (caller, event.topic) event.traceId
    (caller ≠ [] ∧ caller ≠ event.service ∧ providerDrift (c.serviceOrNew caller) event.topic)
    fun hp => hkeys _ (by simp [flaggedBy, hcaller, hp])
  rw [ingestEvent_ok hdecoded, hflag]
  rw [Py.bind_apply]
  cases hrun : (if consumerDrift (c.serviceOrNew event.service) event.topic
      then fileDrift event.service event.topic event.traceId else pure ()) c'.issues with
  | mk outcome issues =>
      rw [hrun] at hconsumer hprovider
      obtain ⟨hok, -⟩ := hconsumer
      dsimp only at hok
      subst hok
      refine ⟨?_, hrecords, howners, ?_⟩
      · rw [hprovider.1]
        rfl
      · rw [List.append_assoc] at hprovider
        simpa only [flaggedBy, hcaller] using hprovider.2

end Flagging

section Delivery

-- The service and the topic are text that can be hashed.
def TraceEvent.Readable (event : TraceEvent) : Prop :=
  Str.Encodable event.service ∧ Str.Encodable event.topic

instance (event : TraceEvent) : Decidable event.Readable := by
  unfold TraceEvent.Readable
  infer_instance

-- Every owner in the index is the service of one of the events.
theorem indexSpan_owner {owners : Dict Str Str} {events : List TraceEvent} {span owner : Str}
    (h : (events.foldl indexSpan owners).get? span = some owner) :
    (∃ event ∈ events, event.spanId = span ∧ event.service = owner) ∨
      owners.get? span = some owner := by
  induction events generalizing owners with
  | nil => exact Or.inr h
  | cons event rest ih =>
      rcases ih h with ⟨other, hmem, hother⟩ | hget
      · exact Or.inl ⟨other, List.mem_cons_of_mem _ hmem, hother⟩
      · rw [indexSpan, Dict.get?_set] at hget
        split at hget
        · rename_i hspan
          cases hget
          exact Or.inl ⟨event, List.mem_cons_self, hspan, rfl⟩
        · exact Or.inr hget

-- The caller of an event is the service of one of the events that came before.
theorem caller_owner {owners : Dict Str Str} {event : TraceEvent} {name : Str}
    (h : event.caller owners = name) (hname : name ≠ []) :
    ∃ span, event.parentSpanId = some span ∧ span ≠ [] ∧ owners.get? span = some name := by
  unfold TraceEvent.caller at h
  cases hparent : event.parentSpanId with
  | none =>
      rw [hparent] at h
      exact absurd h.symm hname
  | some span =>
      rw [hparent] at h
      dsimp only at h
      by_cases hspan : span = []
      · rw [if_pos hspan] at h
        exact absurd h.symm hname
      · rw [if_neg hspan] at h
        cases hget : owners.get? span with
        | none =>
            rw [hget] at h
            exact absurd h.symm hname
        | some owner =>
            rw [hget] at h
            have howner : owner = name := h
            exact ⟨span, rfl, hspan, by rw [hget, howner]⟩

def ReadableOwners (owners : Dict Str Str) : Prop :=
  ∀ span owner, owners.get? span = some owner → Str.Encodable owner

theorem readableOwners_indexSpan {owners : Dict Str Str} (h : ReadableOwners owners)
    {event : TraceEvent} (hevent : event.Readable) : ReadableOwners (indexSpan owners event) := by
  intro span owner hget
  rw [indexSpan, Dict.get?_set] at hget
  split at hget
  · cases hget
    exact hevent.1
  · exact h span owner hget

theorem driftKey_of_flaggedBy {c : Catalog} {owners : Dict Str Str} {event : TraceEvent}
    (howners : ReadableOwners owners) (hevent : event.Readable) {edge : Edge}
    (hedge : edge ∈ flaggedBy c owners event) : ∃ fingerprint, driftKey edge = .ok fingerprint := by
  rw [driftKey, driftFingerprint_ok_iff]
  rcases List.mem_append.mp hedge with hconsumer | hprovider
  · split at hconsumer
    · rw [List.mem_singleton.mp hconsumer]
      exact hevent
    · cases hconsumer
  · split at hprovider
    · rename_i hcaller
      rw [List.mem_singleton.mp hprovider]
      obtain ⟨span, -, -, hget⟩ := caller_owner rfl hcaller.1
      exact ⟨howners span _ hget, hevent.2⟩
    · cases hprovider

theorem holdsDrift_iff {c c' : Catalog} {owners : Dict Str Str} {flagged : List Edge}
    (h : Follows c owners flagged c') (edge : Edge) :
    c'.HoldsDrift edge ↔ ∃ fingerprint, lastFlagged flagged fingerprint = some edge := by
  constructor
  · rintro ⟨issue, hmem, hfiled⟩
    obtain ⟨⟨fingerprint, _⟩, hentry, rfl⟩ := List.mem_map.mp hmem
    have hget := (Dict.mem_entries_iff _ _ _).mp hentry
    have hheld := h.files.held fingerprint
    cases hlast : lastFlagged flagged fingerprint with
    | none =>
        rw [hlast] at hheld
        rw [hget] at hheld
        cases hheld
    | some last =>
        rw [hlast] at hheld
        obtain ⟨other, hother, hfiled'⟩ := hheld
        rw [hget] at hother
        cases hother
        refine ⟨fingerprint, hlast.trans (congrArg some (Prod.ext ?_ ?_))⟩
        · simpa using hfiled'.2.1.symm.trans hfiled.2.1
        · simpa using hfiled'.2.2.symm.trans hfiled.2.2
  · rintro ⟨fingerprint, hlast⟩
    have hheld := h.files.held fingerprint
    rw [hlast] at hheld
    obtain ⟨issue, hget, hfiled⟩ := hheld
    exact ⟨issue, Dict.mem_values_of_get? hget, hfiled⟩

variable [UnicodeData]

theorem follows_events {c c' : Catalog} {owners : Dict Str Str} {flagged : List Edge}
    (hname : ∀ name, (c.serviceOrNew name).name = name) (h : Follows c owners flagged c')
    (howners : ReadableOwners owners) {events : List TraceEvent}
    (hevents : ∀ event ∈ events, event.Readable) :
    ∃ results c'', Py.mapEach ingestEvent (events.map fun event => .obj event.toPayload) c' =
        (.ok results, c'') ∧
      Follows c (events.foldl indexSpan owners) (flagged ++ flaggedIn c owners events) c'' := by
  induction events generalizing c' owners flagged with
  | nil => exact ⟨[], c', rfl, by simpa [flaggedIn] using h⟩
  | cons event rest ih =>
      have hevent := hevents event List.mem_cons_self
      have howners' := readableOwners_indexSpan howners hevent
      obtain ⟨hok, hfollows⟩ := follows_event hname h event fun edge hedge =>
        driftKey_of_flaggedBy howners' hevent hedge
      cases hrun : ingestEvent (.obj event.toPayload) c' with
      | mk outcome c₁ =>
          rw [hrun] at hok hfollows
          dsimp only at hok
          subst hok
          obtain ⟨results, c₂, hrest, hfollows'⟩ := ih hfollows howners' fun other hother =>
            hevents other (List.mem_cons_of_mem _ hother)
          refine ⟨() :: results, c₂, ?_, ?_⟩
          · rw [List.map_cons, Py.mapEach_cons, hrun]
            dsimp only
            rw [hrest]
          · rw [List.append_assoc] at hfollows'
            exact hfollows'

theorem follows_batch {c c' : Catalog} {owners : Dict Str Str} {flagged : List Edge}
    (hname : ∀ name, (c.serviceOrNew name).name = name) (h : Follows c owners flagged c')
    (howners : ReadableOwners owners) {events : List TraceEvent}
    (hevents : ∀ event ∈ events, event.Readable) :
    Follows c (events.foldl indexSpan owners) (flagged ++ flaggedIn c owners events)
      (c'.ingest (tracePost events)) := by
  obtain ⟨results, c'', hrun, hfollows⟩ := follows_events hname h howners hevents
  have hiter : Json.iter (Json.orElse (Json.getField (tracePost events).body "events") (.arr [])) =
      .ok (events.map fun event => .obj event.toPayload) := by
    cases events <;> simp [tracePost, Json.getField, Json.field, Json.orElse, Json.truthy, Json.iter]
  have hingest : c'.ingest (tracePost events) = c'' := by
    simp only [Catalog.ingest, Feed.ingest, tracePost] at hiter ⊢
    simp only [ingestTraces, hiter, Py.bind_apply, Py.lift_apply, raises, Except.mapError, hrun,
      Py.pure_apply]
  rw [hingest]
  exact hfollows

theorem follows_batches {c c' : Catalog} {owners : Dict Str Str} {flagged : List Edge}
    (hname : ∀ name, (c.serviceOrNew name).name = name) (h : Follows c owners flagged c')
    (howners : ReadableOwners owners) {batches : List (List TraceEvent)}
    (hevents : ∀ event ∈ batches.flatten, event.Readable) :
    Follows c (batches.flatten.foldl indexSpan owners)
      (flagged ++ flaggedIn c owners batches.flatten) (c'.run (batches.map tracePost)) := by
  induction batches generalizing c' owners flagged with
  | nil => simpa [flaggedIn, Catalog.run] using h
  | cons batch rest ih =>
      rw [List.flatten_cons] at hevents ⊢
      have hbatch := follows_batch hname h howners fun event hmem =>
        hevents event (List.mem_append_left _ hmem)
      have hindexed : ReadableOwners (batch.foldl indexSpan owners) := by
        intro span owner hget
        rcases indexSpan_owner hget with ⟨event, hmem, -, rfl⟩ | hget
        · exact (hevents event (List.mem_append_left _ hmem)).1
        · exact howners span owner hget
      have hrest := ih hbatch hindexed fun event hmem => hevents event (List.mem_append_right _ hmem)
      rw [List.append_assoc] at hrest
      rw [List.foldl_append, flaggedIn_append]
      exact hrest

end Delivery

section Order

-- The text an edge is fingerprinted by.
def driftText (edge : Edge) : Str :=
  fingerprintText edge.1 edge.2 [] Classification.contractDrift.text "undeclared-edge"

theorem driftKey_congr {a b : Edge} (h : driftText a = driftText b) : driftKey a = driftKey b := by
  unfold driftText at h
  simp only [driftKey, driftFingerprint, issueFingerprint, h]

-- On one topic the text tells the services apart.
theorem eq_of_driftText {a b : Edge} (htopic : a.2 = b.2) (h : driftText a = driftText b) :
    a = b := by
  have hservice : a.1 = b.1 := by
    simpa [driftText, fingerprintText, Str.join, htopic] using h
  exact Prod.ext hservice htopic

-- The child names the parent's span, and the two are spans of different services.
def TraceEvent.CalledBy (child parent : TraceEvent) : Prop :=
  child.parentSpanId = some parent.spanId ∧ parent.spanId ≠ [] ∧ child.spanId ≠ parent.spanId ∧
    parent.service ≠ [] ∧ parent.service ≠ child.service

-- The edge is flagged on its serving side, whatever came before.
def ServedEdge (c : Catalog) (events : List TraceEvent) (edge : Edge) : Prop :=
  ∃ event ∈ events, (event.service, event.topic) = edge ∧
    consumerDrift (c.serviceOrNew event.service) event.topic

-- Every edge that can be flagged on its sending side is flagged on its serving side
-- too, and no two edges flagged there share a fingerprint text.
structure OrderSafe (c : Catalog) (events : List TraceEvent) : Prop where
  served : ∀ child ∈ events, ∀ parent ∈ events, child.CalledBy parent →
    providerDrift (c.serviceOrNew parent.service) child.topic →
      ServedEdge c events (parent.service, child.topic)
  distinct : ∀ a b, ServedEdge c events a → ServedEdge c events b → driftText a = driftText b → a = b

-- The edges made of a service and a topic that the events name.
def namedEdges (events : List TraceEvent) : List Edge :=
  events.map TraceEvent.service ×ˢ events.map TraceEvent.topic

theorem mem_namedEdges {events : List TraceEvent} {a b : TraceEvent} (ha : a ∈ events)
    (hb : b ∈ events) : (a.service, b.topic) ∈ namedEdges events :=
  List.mem_product.mpr ⟨List.mem_map_of_mem ha, List.mem_map_of_mem hb⟩

-- SHA-256 does not collide on the texts of these edges.
def NoCollision (events : List TraceEvent) : Prop :=
  ∀ a ∈ namedEdges events, ∀ b ∈ namedEdges events, driftKey a = driftKey b → driftText a = driftText b

instance (events : List TraceEvent) : Decidable (NoCollision events) := by
  unfold NoCollision
  infer_instance

theorem ServedEdge.named {c : Catalog} {events : List TraceEvent} {edge : Edge}
    (h : ServedEdge c events edge) : edge ∈ namedEdges events := by
  obtain ⟨event, hmem, rfl, -⟩ := h
  exact mem_namedEdges hmem hmem

theorem ServedEdge.perm {c : Catalog} {a b : List TraceEvent} {edge : Edge}
    (h : ServedEdge c a edge) (hperm : a.Perm b) : ServedEdge c b edge := by
  obtain ⟨event, hmem, hevent⟩ := h
  exact ⟨event, hperm.subset hmem, hevent⟩

theorem servedEdge_mem_flaggedIn {c : Catalog} {events : List TraceEvent} {edge : Edge}
    (h : ServedEdge c events edge) (owners : Dict Str Str) : edge ∈ flaggedIn c owners events := by
  obtain ⟨event, hmem, rfl, hdrift⟩ := h
  obtain ⟨before, after, rfl⟩ := List.append_of_mem hmem
  rw [flaggedIn_append, flaggedIn]
  refine List.mem_append_right _ (List.mem_append_left _ ?_)
  simp [flaggedBy, hdrift]

theorem mem_flaggedIn {c : Catalog} {owners : Dict Str Str} {events : List TraceEvent} {edge : Edge}
    (h : edge ∈ flaggedIn c owners events) :
    ∃ before child after, events = before ++ child :: after ∧
      edge ∈ flaggedBy c (indexSpan (before.foldl indexSpan owners) child) child := by
  induction events generalizing owners with
  | nil => cases h
  | cons event rest ih =>
      rcases List.mem_append.mp h with hevent | hrest
      · exact ⟨[], event, rest, rfl, hevent⟩
      · obtain ⟨before, child, after, rfl, hchild⟩ := ih hrest
        exact ⟨event :: before, child, after, rfl, hchild⟩

-- A flagged edge is a served one, or that of a caller whose span came first.
theorem flaggedIn_cases {c : Catalog} {events : List TraceEvent} {edge : Edge}
    (h : edge ∈ flaggedIn c Dict.empty events) :
    ServedEdge c events edge ∨ ∃ before child after, events = before ++ child :: after ∧
      ∃ parent ∈ before, child.CalledBy parent ∧
        providerDrift (c.serviceOrNew parent.service) child.topic ∧
        edge = (parent.service, child.topic) := by
  obtain ⟨before, child, after, hevents, hflagged⟩ := mem_flaggedIn h
  rcases List.mem_append.mp hflagged with hserved | hcalled
  · split at hserved
    · rename_i hdrift
      refine Or.inl ⟨child, ?_, (List.mem_singleton.mp hserved).symm, hdrift⟩
      rw [hevents]
      exact List.mem_append_right _ List.mem_cons_self
    · cases hserved
  · split at hcalled
    · rename_i hcaller
      obtain ⟨hne, hforeign, hdrift⟩ := hcaller
      obtain ⟨span, hparent, hspan, hget⟩ := caller_owner rfl hne
      refine Or.inr ⟨before, child, after, hevents, ?_⟩
      rw [indexSpan, Dict.get?_set] at hget
      split at hget
      · exact absurd (Option.some.inj hget).symm hforeign
      · rename_i hother
        rcases indexSpan_owner hget with ⟨parent, hmem, hid, howner⟩ | hnone
        · refine ⟨parent, hmem, ⟨hid ▸ hparent, hid ▸ hspan, hid ▸ hother, ?_, ?_⟩, ?_, ?_⟩
          · rw [howner]
            exact hne
          · rw [howner]
            exact hforeign
          · rw [howner]
            exact hdrift
          · rw [howner]
            exact List.mem_singleton.mp hcalled
        · cases hnone
    · cases hcalled

-- If the parent comes just before its child, the child's last flag is the caller's.
theorem flaggedBy_called {c : Catalog} (owners : Dict Str Str) {child parent : TraceEvent}
    (hcalled : child.CalledBy parent)
    (hdrift : providerDrift (c.serviceOrNew parent.service) child.topic) :
    ∃ front, flaggedBy c (indexSpan (indexSpan owners parent) child) child =
      front ++ [(parent.service, child.topic)] := by
  obtain ⟨hparent, hspan, hother, hne, hforeign⟩ := hcalled
  have hcaller : child.caller (indexSpan (indexSpan owners parent) child) = parent.service := by
    simp [TraceEvent.caller, hparent, hspan, indexSpan, Dict.get?_set, hother]
  have hflagged : parent.service ≠ [] ∧ parent.service ≠ child.service ∧
      providerDrift (c.serviceOrNew parent.service) child.topic := ⟨hne, hforeign, hdrift⟩
  rw [flaggedBy, hcaller, if_pos hflagged]
  exact ⟨_, rfl⟩

-- An order that ends with an event of a served edge leaves that edge held.
theorem exists_order_served {c : Catalog} {events : List TraceEvent} (hdigest : NoCollision events) {edge : Edge}
    (h : ServedEdge c events edge) :
    ∃ order : List TraceEvent, order.Perm events ∧ ∀ fingerprint, driftKey edge = .ok fingerprint →
      lastFlagged (flaggedIn c Dict.empty order) fingerprint = some edge := by
  obtain ⟨event, hevent, rfl, hdrift⟩ := h
  have hperm : (events.erase event ++ [event]).Perm events :=
    List.perm_append_comm.trans (List.perm_cons_erase hevent).symm
  refine ⟨events.erase event ++ [event], hperm, fun fingerprint hkey => ?_⟩
  rw [flaggedIn_append]
  have howner {span owner : Str}
      (hget : (indexSpan ((events.erase event).foldl indexSpan Dict.empty) event).get? span =
        some owner) : ∃ other ∈ events, other.service = owner := by
    have hget' : ((events.erase event ++ [event]).foldl indexSpan Dict.empty).get? span =
        some owner := by
      rw [List.foldl_append]
      exact hget
    rcases indexSpan_owner hget' with ⟨other, hmem, -, hservice⟩ | hnone
    · exact ⟨other, hperm.subset hmem, hservice⟩
    · cases hnone
  generalize (events.erase event).foldl indexSpan Dict.empty = owners at *
  simp only [flaggedIn, List.append_nil, flaggedBy, hdrift, if_true]
  split
  · rename_i hcaller
    -- The caller's edge is on the same topic, so it cannot have the same fingerprint.
    obtain ⟨span, -, -, hget⟩ := caller_owner rfl hcaller.1
    have hnamed : (event.caller (indexSpan owners event), event.topic) ∈ namedEdges events := by
      obtain ⟨other, hmem, hservice⟩ := howner hget
      rw [← hservice]
      exact mem_namedEdges hmem hevent
    have hother : driftKey (event.caller (indexSpan owners event), event.topic) ≠ .ok fingerprint := by
      intro hsame
      have htext := hdigest _ hnamed (event.service, event.topic) (mem_namedEdges hevent hevent)
        (hsame.trans hkey.symm)
      have hedge : (event.caller (indexSpan owners event), event.topic) =
          (event.service, event.topic) := eq_of_driftText rfl htext
      exact hcaller.2.1 (congrArg Prod.fst hedge)
    rw [← List.append_assoc, lastFlagged_append_singleton, if_neg hother]
    exact lastFlagged_append_self hkey _
  · rw [List.append_nil]
    exact lastFlagged_append_self hkey _

end Order

section Invariance

-- The drift edges of the records `c`, after the batches were delivered, do not
-- depend on the order of the events nor on how they were cut.
def DeliveryInvariant [UnicodeData] (c : Catalog) (events : List TraceEvent) : Prop :=
  ∀ a b : List (List TraceEvent), a.flatten.Perm events → b.flatten.Perm events →
    ∀ edge, (c.run (a.map tracePost)).HoldsDrift edge ↔ (c.run (b.map tracePost)).HoldsDrift edge

-- The records of a catalog that has seen registrations alone.
structure OnlyRegistered (c : Catalog) : Prop where
  name : ∀ name, (c.serviceOrNew name).name = name
  spanOwner : c.spanOwner = Dict.empty
  issues : c.issues = Dict.empty

theorem driftKey_of_served {c : Catalog} {events : List TraceEvent} {edge : Edge}
    (hreadable : ∀ event ∈ events, event.Readable) (h : ServedEdge c events edge) :
    ∃ fingerprint, driftKey edge = .ok fingerprint := by
  obtain ⟨event, hevent, rfl, -⟩ := h
  exact driftFingerprint_ok_iff.mpr (hreadable event hevent)

variable [UnicodeData]

theorem onlyRegistered_run (bodies : List Fields) :
    OnlyRegistered (Catalog.empty.run (bodies.map (Post.mk .register))) := by
  have hrun (c : Catalog) (h : c.spanOwner = Dict.empty ∧ c.issues = Dict.empty) :
      (c.run (bodies.map (Post.mk .register))).spanOwner = Dict.empty ∧
        (c.run (bodies.map (Post.mk .register))).issues = Dict.empty := by
    induction bodies generalizing c with
    | nil => exact h
    | cons body bodies ih =>
        refine ih _ ?_
        simp only [Catalog.ingest, Feed.ingest, ingestRegister_apply]
        cases require body "service" <;> exact h
  exact ⟨name_run (fun _ => rfl) _, (hrun _ ⟨rfl, rfl⟩).1, (hrun _ ⟨rfl, rfl⟩).2⟩

section Registered

variable {c : Catalog} (hc : OnlyRegistered c) {events : List TraceEvent}
  (hreadable : ∀ event ∈ events, event.Readable)

include hc hreadable in
theorem holdsDrift_delivered {batches : List (List TraceEvent)} (hperm : batches.flatten.Perm events)
    (edge : Edge) :
    (c.run (batches.map tracePost)).HoldsDrift edge ↔
      ∃ fingerprint, lastFlagged (flaggedIn c Dict.empty batches.flatten) fingerprint = some edge := by
  have hstart : Follows c Dict.empty [] c :=
    ⟨fun _ => rfl, hc.spanOwner, hc.issues ▸ files_empty⟩
  have hempty : ReadableOwners Dict.empty := fun _ _ h => by simp at h
  have hfollows := follows_batches hc.name hstart hempty fun event hmem =>
    hreadable event (hperm.subset hmem)
  exact holdsDrift_iff hfollows edge

-- A safe set of events leaves exactly the served edges, in any delivery.
include hc hreadable in
theorem holdsDrift_iff_served (hdigest : NoCollision events) (hsafe : OrderSafe c events)
    {batches : List (List TraceEvent)} (hperm : batches.flatten.Perm events) (edge : Edge) :
    (c.run (batches.map tracePost)).HoldsDrift edge ↔ ServedEdge c events edge := by
  have hserved {other : Edge} (h : other ∈ flaggedIn c Dict.empty batches.flatten) :
      ServedEdge c events other := by
    rcases flaggedIn_cases h with hserved | ⟨before, child, after, heq, parent, hmem, hcalled, hdrift, rfl⟩
    · exact hserved.perm hperm
    · have hchild : child ∈ batches.flatten := heq ▸ List.mem_append_right _ List.mem_cons_self
      have hparent : parent ∈ batches.flatten := heq ▸ List.mem_append_left _ hmem
      exact hsafe.served child (hperm.subset hchild) parent (hperm.subset hparent) hcalled hdrift
  rw [holdsDrift_delivered hc hreadable hperm]
  constructor
  · rintro ⟨fingerprint, hlast⟩
    exact hserved (mem_of_lastFlagged hlast).1
  · intro h
    have hmem := servedEdge_mem_flaggedIn (h.perm hperm.symm) Dict.empty
    obtain ⟨fingerprint, hkey⟩ := driftKey_of_served hreadable h
    obtain ⟨last, hlast⟩ := lastFlagged_isSome hmem hkey
    obtain ⟨hlastMem, hlastKey⟩ := mem_of_lastFlagged hlast
    have hlastServed := hserved hlastMem
    have htext := hdigest last hlastServed.named edge h.named (hlastKey.trans hkey.symm)
    rw [hsafe.distinct last edge hlastServed h htext] at hlast
    exact ⟨fingerprint, hlast⟩

-- The other way round. An order that puts the parent and its child last flags the
-- caller; one that puts the caller's own events last never does.
include hc hreadable in
theorem served_of_deliveryInvariant (h : DeliveryInvariant c events) {child parent : TraceEvent}
    (hchild : child ∈ events) (hparent : parent ∈ events) (hcalled : child.CalledBy parent)
    (hdrift : providerDrift (c.serviceOrNew parent.service) child.topic) :
    ServedEdge c events (parent.service, child.topic) := by
  have hne : child ≠ parent := by
    rintro rfl
    exact hcalled.2.2.2.2 rfl
  -- The first order: the parent and then the child come last.
  obtain ⟨rest, hrest⟩ : ∃ rest, (rest ++ [parent, child]).Perm events := by
    have hmem : child ∈ events.erase parent := (List.mem_erase_of_ne hne).mpr hchild
    have hperm := (List.perm_cons_erase hparent).trans ((List.perm_cons_erase hmem).cons parent)
    exact ⟨(events.erase parent).erase child, List.perm_append_comm.trans hperm.symm⟩
  have hheld : (c.run ([rest ++ [parent, child]].map tracePost)).HoldsDrift
      (parent.service, child.topic) := by
    rw [holdsDrift_delivered hc hreadable (by simpa using hrest)]
    obtain ⟨fingerprint, hkey⟩ : ∃ fingerprint,
        driftKey (parent.service, child.topic) = .ok fingerprint :=
      driftFingerprint_ok_iff.mpr ⟨(hreadable parent hparent).1, (hreadable child hchild).2⟩
    obtain ⟨front, hfront⟩ := flaggedBy_called (rest.foldl indexSpan Dict.empty) hcalled hdrift
    refine ⟨fingerprint, ?_⟩
    have hflagged : flaggedIn c Dict.empty [rest ++ [parent, child]].flatten =
        flaggedIn c Dict.empty rest ++
          flaggedBy c (indexSpan (rest.foldl indexSpan Dict.empty) parent) parent ++ front ++
          [(parent.service, child.topic)] := by
      simp only [List.flatten_cons, List.flatten_nil, List.append_nil, flaggedIn_append, flaggedIn,
        hfront, List.append_assoc]
    rw [hflagged]
    exact lastFlagged_append_self hkey _
  -- The second: the events of the parent's service come after all others.
  let late (event : TraceEvent) : Bool := event.service = parent.service
  let order := events.filter (fun event => !late event) ++ events.filter late
  have horder : order.Perm events :=
    List.perm_append_comm.trans (List.filter_append_perm late events)
  have hheld' := (h [rest ++ [parent, child]] [order] (by simpa using hrest) (by simpa using horder)
    (parent.service, child.topic)).mp hheld
  rw [holdsDrift_delivered hc hreadable (by simpa using horder)] at hheld'
  obtain ⟨fingerprint, hlast⟩ := hheld'
  have hflagged := (mem_of_lastFlagged hlast).1
  rw [List.flatten_cons, List.flatten_nil, List.append_nil] at hflagged
  rcases flaggedIn_cases hflagged with hserved | ⟨before, child', after, heq, parent', hmem, hcalled', -, hedge⟩
  · exact hserved.perm horder
  · have hservice : parent.service = parent'.service := congrArg Prod.fst hedge
    have hsorted : order.Pairwise fun a b => late a = true → late b = true := by
      refine List.pairwise_append.mpr ⟨?_, ?_, ?_⟩
      · refine List.pairwise_of_forall_mem_list fun a ha b _ hlate => ?_
        simp [hlate] at ha
      · exact List.pairwise_of_forall_mem_list fun a _ b hb _ => (List.mem_filter.mp hb).2
      · exact fun a _ b hb _ => (List.mem_filter.mp hb).2
    rw [heq] at hsorted
    have hlate := (List.pairwise_append.mp hsorted).2.2 parent' hmem child' List.mem_cons_self
    simp only [late, decide_eq_true_eq] at hlate
    exact absurd (hservice.symm.trans (hlate hservice.symm).symm) hcalled'.2.2.2.2

-- Drift detection is independent of delivery exactly for the safe sets of events.
include hc hreadable in
theorem deliveryInvariant_iff (hdigest : NoCollision events) :
    DeliveryInvariant c events ↔ OrderSafe c events := by
  constructor
  · intro h
    refine ⟨fun child hchild parent hparent hcalled hdrift =>
      served_of_deliveryInvariant hc hreadable h hchild hparent hcalled hdrift, ?_⟩
    intro a b ha hb htext
    obtain ⟨orderA, hpermA, hlastA⟩ := exists_order_served hdigest ha
    obtain ⟨orderB, hpermB, hlastB⟩ := exists_order_served hdigest hb
    obtain ⟨fingerprint, hkey⟩ := driftKey_of_served hreadable ha
    have hkeyB : driftKey b = .ok fingerprint := (driftKey_congr htext).symm.trans hkey
    -- The order that ends with `b` holds `b`, so the one that ends with `a` must too.
    have hpermA' : [orderA].flatten.Perm events := by simpa using hpermA
    have hpermB' : [orderB].flatten.Perm events := by simpa using hpermB
    have hheldB : (c.run ([orderB].map tracePost)).HoldsDrift b := by
      rw [holdsDrift_delivered hc hreadable hpermB']
      exact ⟨fingerprint, by simpa using hlastB fingerprint hkeyB⟩
    have hheldA := (h _ _ hpermA' hpermB' b).mpr hheldB
    rw [holdsDrift_delivered hc hreadable hpermA'] at hheldA
    obtain ⟨other, hother⟩ := hheldA
    have hkeyOther := (mem_of_lastFlagged hother).2
    have hsame : other = fingerprint := Except.ok.inj (hkeyOther.symm.trans hkeyB)
    rw [hsame, List.flatten_cons, List.flatten_nil, List.append_nil, hlastA fingerprint hkey] at hother
    exact Option.some.inj hother
  · intro hsafe a b ha hb edge
    rw [holdsDrift_iff_served hc hreadable hdigest hsafe ha,
      holdsDrift_iff_served hc hreadable hdigest hsafe hb]

end Registered

-- For every set of registrations and of readable events: the drift held at the end
-- does not depend on the delivery exactly if the events are safe.
theorem run_deliveryInvariant_iff (registrations : List Fields) (events : List TraceEvent)
    (hreadable : ∀ event ∈ events, event.Readable) (hdigest : NoCollision events) :
    let collector := Collector.empty.run (registrations.map (Post.mk .register))
    (∀ a b : List (List TraceEvent), a.flatten.Perm events → b.flatten.Perm events →
        ∀ edge, (collector.run (a.map tracePost)).catalog.HoldsDrift edge ↔
          (collector.run (b.map tracePost)).catalog.HoldsDrift edge) ↔
      OrderSafe collector.catalog events := by
  intro collector
  have hcatalog : collector.catalog =
      Catalog.empty.run (registrations.map (Post.mk .register)) := Collector.run_catalog _ _
  have honly : OnlyRegistered collector.catalog := hcatalog ▸ onlyRegistered_run registrations
  simp only [Collector.run_catalog]
  exact deliveryInvariant_iff honly hreadable hdigest

end Invariance

section Example

-- The caller's span, the call it parents on an undeclared topic, and the caller's
-- registration.
def callerEvent : TraceEvent :=
  { traceId := "1", spanId := "p", service := "a", topic := "x", status := "ok" }

def calledEvent : TraceEvent :=
  { traceId := "1", spanId := "q", service := "b", topic := "t", status := "ok",
    parentSpanId := some "p" }

def callerBody : Fields :=
  [Json.field "service" (.str "a"),
    Json.field "requests" (.arr [.obj [Json.field "topic" (.str "x")]]),
    Json.field "events" (.arr []), Json.field "sends" (.arr [])]

-- Delivered after its parent, the call is drift; delivered before, it is not.
theorem calledEvent_order :
    letI := UnicodeData.ascii
    let collector := Collector.empty.run [⟨.register, callerBody⟩]
    (collector.run [tracePost [callerEvent, calledEvent]]).catalog.HoldsDrift ("a", "t") ∧
      ¬(collector.run [tracePost [calledEvent, callerEvent]]).catalog.HoldsDrift ("a", "t") := by
  constructor <;> decide +kernel

theorem calledEvent_deliveryInvariant_iff :
    letI := UnicodeData.ascii
    let collector := Collector.empty.run ([callerBody].map (Post.mk .register))
    (∀ a b : List (List TraceEvent), a.flatten.Perm [callerEvent, calledEvent] →
        b.flatten.Perm [callerEvent, calledEvent] →
        ∀ edge, (collector.run (a.map tracePost)).catalog.HoldsDrift edge ↔
          (collector.run (b.map tracePost)).catalog.HoldsDrift edge) ↔
      OrderSafe collector.catalog [callerEvent, calledEvent] := by
  let _ := UnicodeData.ascii
  have hreadable : ∀ event ∈ [callerEvent, calledEvent], event.Readable := by
    simp [TraceEvent.Readable, callerEvent, calledEvent]
  have hdigest : NoCollision [callerEvent, calledEvent] := by decide +kernel
  exact run_deliveryInvariant_iff [callerBody] [callerEvent, calledEvent] hreadable hdigest

end Example

end Benzene.Mesh
