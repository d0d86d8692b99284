import Benzene.Mesh.Drift
import Benzene.Mesh.Instants

namespace Benzene.Mesh

open Benzene.Data

section Events

theorem getField_startedAt (event : TraceEvent) :
    Json.getField event.toPayload "startedAt" = optionalJson event.startedAt := by
  cases hstart : event.startedAt <;> cases hd : event.durationMs <;>
    simp [TraceEvent.toPayload, Json.getField, Json.field, Entries.get?_append, Json.get?_optionalField, hstart, hd,
      optionalJson]

variable [UnicodeData]

def Decodes (event : TraceEvent) (decoded : Event) : Prop := decodeEvent (.obj event.toPayload) = .ok decoded

-- What is decoded of a reported event.
theorem Decodes.members {event : TraceEvent} {decoded : Event} (h : Decodes event decoded) :
    decoded.service = event.service ∧ decoded.topic = event.topic ∧
      decoded.parentSpanId = optionalJson event.parentSpanId ∧ decoded.startedAt = optionalJson event.startedAt := by
  obtain ⟨other, hother, -, -, hservice, htopic, -, hparent⟩ := decodeEvent_toPayload event
  rw [h] at hother
  cases hother
  refine ⟨hservice, htopic, hparent, ?_⟩
  unfold Decodes decodeEvent at h
  obtain ⟨duration, -, hdecoded⟩ := Except.bind_eq_ok.mp h
  cases hdecoded
  exact getField_startedAt event

theorem events_mapEach {events : List TraceEvent} {c after : Catalog} {results : List Unit}
    (h : Py.mapEach ingestEvent (events.map fun event => .obj event.toPayload) c = (.ok results, after)) :
    ∃ decoded, List.Forall₂ Decodes events decoded ∧ after.events = c.events ++ decoded := by
  induction events generalizing c results with
  | nil =>
      cases h
      exact ⟨[], .nil, (List.append_nil _).symm⟩
  | cons event rest ih =>
      obtain ⟨decoded, hdecoded, -⟩ := decodeEvent_toPayload event
      rw [List.map_cons, Py.mapEach_cons] at h
      cases hrun : ingestEvent (.obj event.toPayload) c with
      | mk outcome next =>
          rw [hrun] at h
          cases outcome with
          | error error => cases h
          | ok value =>
              cases hrest : Py.mapEach ingestEvent (rest.map fun event => .obj event.toPayload) next with
              | mk ended last =>
                  dsimp only at h
                  rw [hrest] at h
                  cases ended with
                  | error error => cases h
                  | ok others =>
                      cases h
                      obtain ⟨more, hmore, hevents⟩ := ih hrest
                      have hnext : next.events = c.events ++ [decoded] := by
                        rw [ingestEvent_ok hdecoded] at hrun
                        cases (Prod.mk.inj hrun).2
                        rfl
                      refine ⟨decoded :: more, .cons hdecoded hmore, ?_⟩
                      rw [hevents, hnext, List.append_assoc]
                      rfl

theorem ingest_tracePost {events : List TraceEvent} {c after : Catalog} {results : List Unit}
    (h : Py.mapEach ingestEvent (events.map fun event => .obj event.toPayload) c = (.ok results, after)) :
    c.ingest (tracePost events) = after := by
  have hiter : Json.iter (Json.orElse (Json.getField (tracePost events).body "events") (.arr [])) =
      .ok (events.map fun event => .obj event.toPayload) := by
    cases events <;> simp [tracePost, Json.getField, Json.field, Json.orElse, Json.truthy, Json.iter]
  simp only [Catalog.ingest, Feed.ingest, tracePost] at hiter ⊢
  simp only [ingestTraces, hiter, Py.bind_apply, Py.lift_apply, raises, Except.mapError, h, Py.pure_apply]

-- The events of readable batches are held in the order in which they came.
theorem events_batches {c c' : Catalog} {owners : Dict Str Str} {flagged : List Edge}
    (hname : ∀ name, (c.serviceOrNew name).name = name) (h : Follows c owners flagged c')
    (howners : ReadableOwners owners) {batches : List (List TraceEvent)}
    (hevents : ∀ event ∈ batches.flatten, event.Readable) :
    ∃ decoded, List.Forall₂ Decodes batches.flatten decoded ∧
      (c'.run (batches.map tracePost)).events = c'.events ++ decoded := by
  induction batches generalizing c' owners flagged with
  | nil => exact ⟨[], .nil, (List.append_nil _).symm⟩
  | cons batch rest ih =>
      rw [List.flatten_cons] at hevents ⊢
      have hbatch : ∀ event ∈ batch, event.Readable := fun event hmem => hevents event (List.mem_append_left _ hmem)
      obtain ⟨results, after, hrun, hfollows⟩ := follows_events hname h howners hbatch
      obtain ⟨decoded, hdecoded, hafter⟩ := events_mapEach hrun
      have hindexed : ReadableOwners (batch.foldl indexSpan owners) := by
        intro span owner hget
        rcases indexSpan_owner hget with ⟨event, hmem, -, rfl⟩ | hget
        · exact (hbatch event hmem).1
        · exact howners span owner hget
      obtain ⟨more, hmore, hlast⟩ := ih hfollows hindexed fun event hmem => hevents event (List.mem_append_right _ hmem)
      refine ⟨decoded ++ more, List.rel_append hdecoded hmore, ?_⟩
      rw [← List.append_assoc, ← hafter, ← hlast, ← ingest_tracePost hrun]
      rfl

-- The catalog `c` of registrations, after the batches.
structure Collected (c : Catalog) (events : List TraceEvent) (c' : Catalog) : Prop where
  records : ∀ name, c'.serviceOrNew name = c.serviceOrNew name
  owners : c'.spanOwner = events.foldl indexSpan Dict.empty
  events : List.Forall₂ Decodes events c'.events

theorem collected_run {c : Catalog} (hc : OnlyRegistered c) (hnone : c.events = []) {batches : List (List TraceEvent)}
    (hevents : ∀ event ∈ batches.flatten, event.Readable) :
    Collected c batches.flatten (c.run (batches.map tracePost)) := by
  have hstart : Follows c Dict.empty [] c := ⟨fun _ => rfl, hc.spanOwner, hc.issues ▸ files_empty⟩
  have hempty : ReadableOwners Dict.empty := fun _ _ hget => by simp at hget
  have hfollows := follows_batches hc.name hstart hempty hevents
  obtain ⟨decoded, hdecoded, hheld⟩ := events_batches hc.name hstart hempty hevents
  rw [hnone, List.nil_append] at hheld
  exact ⟨hfollows.records, hfollows.owners, hheld ▸ hdecoded⟩

theorem events_registered (bodies : List Fields) :
    (Catalog.empty.run (bodies.map (Post.mk .register))).events = [] := by
  have hrun (c : Catalog) (h : c.events = []) : (c.run (bodies.map (Post.mk .register))).events = [] := by
    induction bodies generalizing c with
    | nil => exact h
    | cons body bodies ih =>
        refine ih _ ?_
        simp only [Catalog.ingest, Feed.ingest, ingestRegister_apply]
        cases require body "service" <;> exact h
  exact hrun _ rfl

end Events

section Sightings

theorem stampsAt_ne_nil {given : List (Str × Json)} {name : Str} :
    stampsAt given name ≠ [] ↔ ∃ stamp, (name, .str stamp) ∈ given := by
  constructor
  · intro h
    obtain ⟨stamp, hstamp⟩ := List.exists_mem_of_ne_nil _ h
    obtain ⟨entry, hentry, hmem⟩ := List.mem_flatMap.mp hstamp
    split at hmem
    · rename_i hname
      obtain ⟨other, value⟩ := entry
      cases value with
      | str text =>
          obtain rfl : other = name := hname
          exact ⟨text, hentry⟩
      | _ => cases hmem
    · cases hmem
  · rintro ⟨stamp, hentry⟩ hnil
    have hmem : stamp ∈ stampsAt given name := by
      apply List.mem_flatMap.mpr
      refine ⟨_, hentry, ?_⟩
      simp [stampsOf]
    rw [hnil] at hmem
    cases hmem

theorem Extreme.Holds.ne_null_iff {x : Extreme} {stamps : List Str} {held : Json} (h : x.Holds stamps held) :
    held ≠ .null ↔ stamps ≠ [] := by
  constructor
  · intro hheld hnil
    exact hheld (h.1 hnil)
  · intro hne hnull
    obtain ⟨stamp, rfl, -⟩ := h.2 hne
    cases hnull

-- An event of a service that knows the time.
def TraceEvent.Stamped (event : TraceEvent) : Prop :=
  ∃ stamp t, event.startedAt = some stamp ∧ Rfc3339.instant stamp = some t

variable [UnicodeData] {c c' : Catalog} {events : List TraceEvent}

theorem Collected.mem_events (h : Collected c events c') {p : Event → Prop} :
    (∃ decoded ∈ c'.events, p decoded) ↔ ∃ event ∈ events, ∃ decoded, Decodes event decoded ∧ p decoded := by
  have hevents := h.events
  generalize c'.events = held at hevents
  clear h
  induction hevents with
  | nil => simp
  | @cons event decoded rest more hdecodes _ ih =>
      have hunique (other : Event) : Decodes event other ↔ other = decoded := by
        constructor
        · intro hother
          exact Except.ok.inj (hother.symm.trans hdecodes)
        · rintro rfl
          exact hdecodes
      simp only [List.exists_mem_cons_iff, ih, hunique, exists_eq_left]

theorem Collected.timed (h : Collected c events c') (hstamped : ∀ event ∈ events, event.Stamped) :
    ∀ event ∈ c'.events, TimeMember event.startedAt := by
  intro decoded hmem
  obtain ⟨event, hevent, other, hdecodes, rfl⟩ := h.mem_events.mp ⟨decoded, hmem, rfl⟩
  obtain ⟨stamp, t, hstart, hinstant⟩ := hstamped event hevent
  rw [hdecodes.members.2.2.2, hstart]
  exact .inr ⟨stamp, t, rfl, hinstant⟩

-- A name was seen on a topic if one of its events says so.
theorem Collected.handled (h : Collected c events c') (hstamped : ∀ event ∈ events, event.Stamped) {topic name : Str} :
    stampsAt (c'.handled topic) name ≠ [] ↔ ∃ event ∈ events, event.topic = topic ∧ event.service = name := by
  rw [stampsAt_ne_nil]
  constructor
  · rintro ⟨stamp, hmem⟩
    obtain ⟨decoded, hdecoded, hentry⟩ := List.mem_map.mp hmem
    obtain ⟨hheld, htopic⟩ := List.mem_filter.mp hdecoded
    obtain ⟨event, hevent, other, hdecodes, rfl⟩ := h.mem_events.mp ⟨decoded, hheld, rfl⟩
    obtain ⟨hservice, htopic', -, -⟩ := hdecodes.members
    refine ⟨event, hevent, ?_, ?_⟩
    · rw [← htopic']
      exact of_decide_eq_true htopic
    · rw [← hservice]
      exact congrArg Prod.fst hentry
  · rintro ⟨event, hevent, rfl, rfl⟩
    obtain ⟨stamp, t, hstart, -⟩ := hstamped event hevent
    obtain ⟨decoded, hdecodes, -⟩ := decodeEvent_toPayload event
    obtain ⟨_, hheld, rfl⟩ := h.mem_events.mpr ⟨event, hevent, decoded, hdecodes, rfl⟩
    obtain ⟨hservice, htopic, -, hstart'⟩ := Decodes.members hdecodes
    refine ⟨stamp, List.mem_map.mpr ⟨decoded, List.mem_filter.mpr ⟨hheld, decide_eq_true htopic⟩, ?_⟩⟩
    rw [hservice, hstart', hstart]
    rfl

omit [UnicodeData] in
theorem parentOwner_caller (owners : Dict Str Str) (event : TraceEvent) :
    parentOwner owners (optionalJson event.parentSpanId) = event.caller owners :=
  (callerName_ok_iff.mp (callerName_eq owners event)).2

-- It was seen to send it if one of its spans is the parent of another service's.
theorem Collected.called (h : Collected c events c') (hstamped : ∀ event ∈ events, event.Stamped) {topic name : Str} :
    stampsAt (c'.called topic) name ≠ [] ↔ ∃ event ∈ events, event.topic = topic ∧
      event.caller (events.foldl indexSpan Dict.empty) = name ∧ name ≠ [] ∧ name ≠ event.service := by
  rw [stampsAt_ne_nil]
  constructor
  · rintro ⟨stamp, hmem⟩
    obtain ⟨decoded, hdecoded, hentry⟩ := List.mem_filterMap.mp hmem
    obtain ⟨hheld, htopic⟩ := List.mem_filter.mp hdecoded
    obtain ⟨event, hevent, other, hdecodes, rfl⟩ := h.mem_events.mp ⟨decoded, hheld, rfl⟩
    obtain ⟨hservice, htopic', hparent, -⟩ := hdecodes.members
    unfold callerOf at hentry
    dsimp only at hentry
    rw [hparent, parentOwner_caller, h.owners, hservice] at hentry
    split at hentry
    · rename_i hforeign
      obtain rfl : event.caller _ = name := congrArg Prod.fst (Option.some.inj hentry)
      refine ⟨event, hevent, ?_, rfl, hforeign⟩
      rw [← htopic']
      exact of_decide_eq_true htopic
    · cases hentry
  · rintro ⟨event, hevent, rfl, rfl, hforeign⟩
    obtain ⟨stamp, t, hstart, -⟩ := hstamped event hevent
    obtain ⟨decoded, hdecodes, -⟩ := decodeEvent_toPayload event
    obtain ⟨_, hheld, rfl⟩ := h.mem_events.mpr ⟨event, hevent, decoded, hdecodes, rfl⟩
    obtain ⟨hservice, htopic, hparent, hstart'⟩ := Decodes.members hdecodes
    refine ⟨stamp, List.mem_filterMap.mpr ⟨decoded, List.mem_filter.mpr ⟨hheld, decide_eq_true htopic⟩, ?_⟩⟩
    unfold callerOf
    dsimp only
    rw [hparent, parentOwner_caller, h.owners, hservice, if_pos hforeign, hstart', hstart]
    rfl

theorem Collected.hashable (h : Collected c events c') : ∀ event ∈ c'.events, HashableParent event := by
  intro decoded hmem
  obtain ⟨event, hevent, other, hdecodes, rfl⟩ := h.mem_events.mp ⟨decoded, hmem, rfl⟩
  exact (callerName_ok_iff.mp (hdecodes.members.2.2.1 ▸ callerName_eq c'.spanOwner event)).1

end Sightings

section Owners

theorem get?_indexed {events : List TraceEvent} (hnodup : (events.map TraceEvent.spanId).Nodup) (owners : Dict Str Str)
    {event : TraceEvent} (hmem : event ∈ events) :
    (events.foldl indexSpan owners).get? event.spanId = some event.service := by
  induction events generalizing owners with
  | nil => cases hmem
  | cons first rest ih =>
      obtain ⟨hfirst, hrest⟩ := List.nodup_cons.mp hnodup
      rcases List.mem_cons.mp hmem with rfl | hlater
      · have hkept (owners : Dict Str Str) {others : List TraceEvent}
            (hothers : event.spanId ∉ others.map TraceEvent.spanId) :
            (others.foldl indexSpan owners).get? event.spanId = owners.get? event.spanId := by
          induction others generalizing owners with
          | nil => rfl
          | cons other others ih =>
              rw [List.map_cons, List.mem_cons, not_or] at hothers
              rw [List.foldl_cons, ih _ hothers.2, indexSpan, Dict.get?_set, if_neg (Ne.symm hothers.1)]
        rw [List.foldl_cons, hkept _ hfirst, indexSpan, Dict.get?_set_self]
      · exact ih hrest _ hlater

-- Where no two spans share an id, a caller is found exactly by its span.
theorem caller_indexed {events : List TraceEvent} (hnodup : (events.map TraceEvent.spanId).Nodup)
    (hids : ∀ event ∈ events, event.spanId ≠ []) {event : TraceEvent} {name : Str} (hname : name ≠ []) :
    event.caller (events.foldl indexSpan Dict.empty) = name ↔
      ∃ parent ∈ events, event.parentSpanId = some parent.spanId ∧ parent.service = name := by
  constructor
  · intro h
    obtain ⟨span, hparent, -, hget⟩ := caller_owner h hname
    rcases indexSpan_owner hget with ⟨parent, hmem, rfl, hservice⟩ | hnone
    · exact ⟨parent, hmem, hparent, hservice⟩
    · cases hnone
  · rintro ⟨parent, hmem, hparent, rfl⟩
    unfold TraceEvent.caller
    rw [hparent]
    dsimp only
    rw [if_neg (hids parent hmem), get?_indexed hnodup _ hmem]
    rfl

end Owners

end Benzene.Mesh
