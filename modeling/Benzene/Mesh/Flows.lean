import Benzene.Data.Rfc3339
import Benzene.Data.StableSort
import Benzene.Mesh.Restore
import Mathlib.Order.Bounds.Basic

namespace Benzene.Mesh

open Benzene.Data Benzene.Results

section Timeline

variable [UnicodeData] [Calendar]

def Event.start (event : Event) : Option Int := (instant event.startedAt).map Moment.utc

def Event.finish (event : Event) : Option Int :=
  ((instant event.startedAt).bind fun m => m.addMilliseconds event.durationMs).map Moment.utc

def Event.duration (event : Event) : ℚ :=
  match event.durationMs with
  | .finite d => d.toRat
  | _ => 0

def starts (events : List Event) : Set Int := {t | t ∈ events.filterMap Event.start}

def ends (events : List Event) : Set Int := {t | t ∈ events.filterMap Event.finish}

def durations (events : List Event) : Set ℚ := {d | d ∈ events.map Event.duration}

-- An unreadable start comes after every readable one.
def NoLater (a b : Event) : Prop := ∀ t, b.start = some t → ∃ s, a.start = some s ∧ s ≤ t

-- The earliest-started failing event, the first received of a tie, or the
-- earliest-started event when none failed.
def Decides (events : List Event) (event : Event) : Prop :=
  if ∃ failing ∈ events, isSuccessful failing.status = false
  then FirstLeast NoLater (fun other => !isSuccessful other.status) events event
  else FirstLeast NoLater (fun _ => true) events event

-- What a summary says of the events of its trace.
structure TellsFlow (traceId : Str) (events : List Event) (fields : Fields) : Prop where
  traceId : Json.getField fields "traceId" = .str traceId
  count : Json.getField fields "events" = .int events.length
  failed : ∃ failed, Json.getField fields "failed" = .bool failed ∧
    (failed = true ↔ ∃ event ∈ events, isSuccessful event.status = false)
  status : ∃ event, Decides events event ∧
    Entries.get? ("status" : Str) fields = if event.status = [] then none else some (.str event.status)
  startedAt : (∃ stamp m, Json.getField fields "startedAt" = stamp ∧ instant stamp = some m ∧
      (∃ event ∈ events, event.startedAt = stamp) ∧ IsLeast (starts events) m.utc) ∨
    Json.getField fields "startedAt" = .str [] ∧ starts events = ∅
  durationMs : ∃ d longest, Json.getField fields "durationMs" = .float (.finite d) ∧
    IsGreatest (durations events) longest ∧ longest ≤ d.toRat ∧
    ((∃ start finish, IsLeast (starts events) start ∧ IsGreatest (ends events) finish ∧
      d.toRat = max longest ((finish - start : Int) / 1000)) ∨
    ends events = ∅ ∧ d.toRat = longest)

def Catalog.flow (c : Catalog) (traceId : Str) : List Event :=
  c.events.filter fun event => event.traceId = traceId

-- The second trace, if it has a known start, started no later than the first.
def Catalog.Newer (c : Catalog) (first second : Str) : Prop :=
  ∀ t, IsLeast (starts (c.flow second)) t → ∃ s, IsLeast (starts (c.flow first)) s ∧ t ≤ s

-- One summary for each trace, the newest trace first.
structure Catalog.Recounts (c : Catalog) (order : List Str) (summaries : List Json) : Prop where
  once : order.Nodup
  every : ∀ traceId, traceId ∈ order ↔ ∃ event ∈ c.events, event.traceId = traceId
  newest : order.Pairwise c.Newer
  tells : List.Forall₂ (fun traceId summary =>
    ∃ fields, summary = .obj fields ∧ TellsFlow traceId (c.flow traceId) fields) order summaries

end Timeline

section Order

variable [UnicodeData] [Calendar]

theorem startsNoLater_iff {a b : Event} : startsNoLater a b = true ↔ NoLater a b := by
  rw [startsNoLater, NoLater, Event.start, Event.start]
  cases instant a.startedAt with
  | none =>
      cases instant b.startedAt with
      | none => simp
      | some t => simp
  | some s =>
      cases instant b.startedAt with
      | none => simp
      | some t => simp

theorem noLater_eq : (fun a b : Event => startsNoLater a b = true) = NoLater := by
  funext a b
  exact propext startsNoLater_iff

instance : Std.Total (fun a b : Event => startsNoLater a b = true) where
  total a b := by
    rw [startsNoLater, startsNoLater]
    cases instant a.startedAt with
    | none => cases instant b.startedAt <;> simp
    | some s =>
        cases instant b.startedAt with
        | none => simp
        | some t => simpa using le_total s.utc t.utc

instance : IsTrans Event (fun a b : Event => startsNoLater a b = true) where
  trans a b c hab hbc := by
    rw [startsNoLater_iff] at *
    intro u hu
    obtain ⟨t, ht, htu⟩ := hbc u hu
    obtain ⟨s, hs, hst⟩ := hab t ht
    exact ⟨s, hs, hst.trans htu⟩

theorem mem_starts {events : List Event} {t : Int} :
    t ∈ starts events ↔ ∃ event ∈ events, event.start = some t := by
  simp [starts]

theorem starts_isLeast {events : List Event} {first : Event} {m : Moment}
    (hfirst : FirstLeast (fun a b => startsNoLater a b = true) (fun _ => true) events first)
    (hm : instant first.startedAt = some m) : IsLeast (starts events) m.utc := by
  have hstart : first.start = some m.utc := by rw [Event.start, hm, Option.map_some]
  refine ⟨mem_starts.mpr ⟨first, hfirst.mem.1, hstart⟩, fun t ht => ?_⟩
  obtain ⟨event, hevent, ht⟩ := mem_starts.mp ht
  obtain ⟨s, hs, hle⟩ := startsNoLater_iff.mp (hfirst.least event hevent rfl) t ht
  rw [hstart] at hs
  cases hs
  exact hle

theorem starts_eq_empty {events : List Event} {first : Event}
    (hfirst : FirstLeast (fun a b => startsNoLater a b = true) (fun _ => true) events first)
    (hm : instant first.startedAt = none) : starts events = ∅ := by
  refine Set.eq_empty_iff_forall_notMem.mpr fun t ht => ?_
  obtain ⟨event, hevent, ht⟩ := mem_starts.mp ht
  obtain ⟨s, hs, -⟩ := startsNoLater_iff.mp (hfirst.least event hevent rfl) t ht
  rw [Event.start, hm] at hs
  cases hs

theorem firstLeast_ordered {events : List Event} {first : Event}
    (h : (events.insertionSort fun a b => startsNoLater a b).head? = some first) :
    FirstLeast (fun a b => startsNoLater a b = true) (fun _ => true) events first :=
  firstLeast_of_head? (by rwa [List.filter_true])

theorem decides_of_head? {events : List Event} {event : Event}
    (h : ((events.insertionSort fun a b => startsNoLater a b).filter
        (fun other => !isSuccessful other.status) ++
      events.insertionSort fun a b => startsNoLater a b).head? = some event) :
    Decides events event := by
  have hmem {other : Event} : other ∈ (events.insertionSort fun a b => startsNoLater a b).filter
      (fun other => !isSuccessful other.status) ↔
      other ∈ events ∧ isSuccessful other.status = false := by
    rw [List.mem_filter, List.mem_insertionSort, Bool.not_eq_true']
  rw [Decides, ← noLater_eq]
  cases hfailing : (events.insertionSort fun a b => startsNoLater a b).filter
      (fun other => !isSuccessful other.status) with
  | nil =>
      rw [if_neg]
      · rw [hfailing, List.nil_append] at h
        exact firstLeast_ordered h
      · rintro ⟨other, hother⟩
        have hnone := hmem.mpr hother
        rw [hfailing] at hnone
        exact List.not_mem_nil hnone
  | cons first rest =>
      rw [hfailing, List.cons_append, List.head?_cons] at h
      cases h
      rw [if_pos]
      · exact firstLeast_of_head? (by rw [hfailing, List.head?_cons])
      · exact ⟨event, hmem.mp (hfailing ▸ List.mem_cons_self)⟩

end Order

section Duration

theorem floatMax_finite (a b : Decimal) :
    ∃ m : Decimal, floatMax (.finite a) (.finite b) = .finite m ∧ m.toRat = max a.toRat b.toRat := by
  have hmax : floatMax (.finite a) (.finite b) = if a.toRat < b.toRat then .finite b else .finite a := by
    simp [floatMax, Json.numeric?, Json.Numeric.lt]
  rw [hmax]
  split
  · rename_i hlt
    exact ⟨b, rfl, (max_eq_right hlt.le).symm⟩
  · rename_i hge
    exact ⟨a, rfl, (max_eq_left (not_lt.mp hge)).symm⟩

theorem longest_foldl {events : List Event} (htimed : ∀ event ∈ events, event.Timed) (d : Decimal) :
    ∃ longest : Decimal,
      events.foldl (fun longest event => floatMax longest event.durationMs) (.finite d) =
          .finite longest ∧
        longest.toRat = (events.map Event.duration).foldl max d.toRat := by
  induction events generalizing d with
  | nil => exact ⟨d, rfl, rfl⟩
  | cons event rest ih =>
      obtain ⟨own, hown, -⟩ := htimed event List.mem_cons_self
      obtain ⟨m, hm, hvalue⟩ := floatMax_finite d own
      obtain ⟨longest, hlongest, hmax⟩ := ih (fun e he => htimed e (List.mem_cons_of_mem _ he)) m
      have hduration : event.duration = own.toRat := by rw [Event.duration, hown]
      refine ⟨longest, ?_, ?_⟩
      · rw [List.foldl_cons, hown, hm, hlongest]
      · rw [List.map_cons, List.foldl_cons, hduration, ← hvalue, hmax]

theorem longestDuration_isGreatest {events : List Event} (hne : events ≠ [])
    (htimed : ∀ event ∈ events, event.Timed) :
    ∃ longest : Decimal, longestDuration events = .finite longest ∧
      IsGreatest (durations events) longest.toRat ∧ 0 ≤ longest.toRat := by
  cases events with
  | nil => exact absurd rfl hne
  | cons event rest =>
      obtain ⟨own, hown, hnonneg⟩ := htimed event List.mem_cons_self
      obtain ⟨longest, hlongest, hvalue⟩ :=
        longest_foldl (fun e he => htimed e (List.mem_cons_of_mem _ he)) own
      have hduration : event.duration = own.toRat := by rw [Event.duration, hown]
      have hmax : ((event :: rest).map Event.duration).max? = some longest.toRat := by
        rw [List.map_cons, List.max?_cons', hduration, hvalue]
      obtain ⟨hmem, hbound⟩ := List.max?_eq_some_iff.mp hmax
      refine ⟨longest, by rw [longestDuration, hown, hlongest], ⟨hmem, hbound⟩, ?_⟩
      calc 0 ≤ own.toRat := Decimal.toRat_nonneg hnonneg
        _ = event.duration := hduration.symm
        _ ≤ longest.toRat := hbound _ (List.mem_map.mpr ⟨event, List.mem_cons_self, rfl⟩)

theorem foldl_max_cases (values : List Int) (start : Int) :
    values = [] ∨ ∃ latest, IsGreatest {t | t ∈ values} latest ∧
      values.foldl max start = max start latest := by
  cases hmax : values.max? with
  | none => exact Or.inl (List.max?_eq_none_iff.mp hmax)
  | some latest =>
      obtain ⟨hmem, hbound⟩ := List.max?_eq_some_iff.mp hmax
      exact Or.inr ⟨latest, ⟨hmem, hbound⟩, by rw [List.foldl_max, hmax, Option.getD_some]⟩

theorem toRat_inMilliseconds (span : Int) : (Decimal.ofParts span (-3)).toRat = span / 1000 := by
  rw [Decimal.toRat_ofParts, zpow_neg, ← div_eq_mul_inv]
  norm_num

variable [UnicodeData] [Calendar]

theorem finish_foldl (events : List Event) (start : Int) :
    events.foldl (fun finish event =>
        match (instant event.startedAt).bind fun m => m.addMilliseconds event.durationMs with
        | some m => max finish m.utc
        | none => finish) start =
      (events.filterMap Event.finish).foldl max start := by
  rw [List.foldl_filterMap]
  congr 1
  funext finish event
  rw [Event.finish]
  cases (instant event.startedAt).bind fun m => m.addMilliseconds event.durationMs <;> rfl

theorem ends_eq_empty {events : List Event} (h : starts events = ∅) : ends events = ∅ := by
  refine Set.eq_empty_of_forall_notMem fun t ht => ?_
  obtain ⟨event, hevent, hfinish⟩ := List.mem_filterMap.mp ht
  obtain ⟨m, hm, -⟩ := Option.map_eq_some_iff.mp hfinish
  obtain ⟨started, hstarted, -⟩ := Option.bind_eq_some_iff.mp hm
  have hstart : started.utc ∈ starts events :=
    mem_starts.mpr ⟨event, hevent, by rw [Event.start, hstarted, Option.map_some]⟩
  rw [h] at hstart
  exact hstart

theorem flowDuration_some {events : List Event} (hne : events ≠ [])
    (htimed : ∀ event ∈ events, event.Timed) (start : Moment) :
    ∃ d : Decimal, ∃ longest, flowDuration events (some start) = .finite d ∧
      IsGreatest (durations events) longest ∧
      ((∃ finish, IsGreatest (ends events) finish ∧
          d.toRat = max longest ((finish - start.utc : Int) / 1000)) ∨
        ends events = ∅ ∧ d.toRat = longest) := by
  obtain ⟨longest, hlongest, hgreatest, hnonneg⟩ := longestDuration_isGreatest hne htimed
  have hflow : flowDuration events (some start) =
      floatMax (inMilliseconds ((events.filterMap Event.finish).foldl max start.utc - start.utc))
        (.finite longest) := by
    rw [← finish_foldl, ← hlongest]
    rfl
  obtain ⟨d, hd, hvalue⟩ := floatMax_finite
    (Decimal.ofParts ((events.filterMap Event.finish).foldl max start.utc - start.utc) (-3)) longest
  rw [toRat_inMilliseconds] at hvalue
  refine ⟨d, longest.toRat, hflow.trans hd, hgreatest, ?_⟩
  rcases foldl_max_cases (events.filterMap Event.finish) start.utc with hnone | ⟨finish, hfinish, hfold⟩
  · refine Or.inr ⟨by simp [ends, hnone], ?_⟩
    rw [hvalue, hnone, List.foldl_nil, sub_self, Int.cast_zero, zero_div, max_eq_right hnonneg]
  · refine Or.inl ⟨finish, hfinish, ?_⟩
    rw [hvalue, hfold]
    -- An end before the start leaves the length of the longest event.
    rcases le_total start.utc finish with hle | hle
    · rw [max_eq_right hle, max_comm]
    · have hspan : ((finish - start.utc : Int) : ℚ) / 1000 ≤ 0 := by
        have hcast : ((finish - start.utc : Int) : ℚ) ≤ 0 := by exact_mod_cast sub_nonpos.mpr hle
        exact div_nonpos_of_nonpos_of_nonneg hcast (by norm_num)
      rw [max_eq_left hle, sub_self, Int.cast_zero, zero_div, max_eq_right hnonneg,
        max_eq_left (hspan.trans hnonneg)]

end Duration

section Summary

variable [UnicodeData] [Calendar]

theorem traceSummary_start {traceId : Str} {events : List Event} {m : Moment}
    (h : (traceSummary traceId events).1 = some m) : IsLeast (starts events) m.utc := by
  obtain ⟨first, hfirst, hm⟩ := Option.bind_eq_some_iff.mp h
  exact starts_isLeast (firstLeast_ordered hfirst) hm

theorem traceSummary_unread {traceId : Str} {events : List Event}
    (h : (traceSummary traceId events).1 = none) : starts events = ∅ := by
  cases hfirst : (events.insertionSort fun a b => startsNoLater a b).head? with
  | none =>
      rw [List.head?_eq_none_iff] at hfirst
      have hevents : events = [] := List.perm_nil.mp (hfirst ▸ (List.perm_insertionSort _ events).symm)
      rw [hevents, starts, List.filterMap_nil]
      exact Set.eq_empty_of_forall_notMem fun _ => List.not_mem_nil
  | some first =>
      refine starts_eq_empty (firstLeast_ordered hfirst) ?_
      simpa [traceSummary, hfirst] using h

theorem traceSummary_failed {traceId : Str} {events : List Event} {fields : Fields}
    (h : (traceSummary traceId events).2 = .obj fields) :
    ∃ failed, Json.getField fields "failed" = .bool failed ∧
      (failed = true ↔ ∃ event ∈ events, isSuccessful event.status = false) := by
  cases h
  refine ⟨_, rfl, ?_⟩
  rw [Bool.not_eq_true', List.isEmpty_eq_false_iff_exists_mem]
  refine exists_congr fun event => ?_
  rw [List.mem_filter, List.mem_insertionSort, Bool.not_eq_true']

theorem traceSummary_status {traceId : Str} {events : List Event} {fields : Fields} (hne : events ≠ [])
    (h : (traceSummary traceId events).2 = .obj fields) :
    ∃ event, Decides events event ∧ Entries.get? ("status" : Str) fields =
      if event.status = [] then none else some (.str event.status) := by
  cases h
  obtain ⟨event, hevent⟩ : ∃ event,
      ((events.insertionSort fun a b => startsNoLater a b).filter
          (fun other => !isSuccessful other.status) ++
        events.insertionSort fun a b => startsNoLater a b).head? = some event := by
    refine Option.isSome_iff_exists.mp (List.isSome_head?.mpr ?_)
    intro hnil
    have hordered := (List.append_eq_nil_iff.mp hnil).2
    exact hne (List.perm_nil.mp (hordered ▸ (List.perm_insertionSort _ events).symm))
  refine ⟨event, decides_of_head? hevent, ?_⟩
  rw [hevent, Option.map_some, Option.getD_some]
  by_cases hstatus : event.status = []
  · rw [if_pos hstatus, if_pos hstatus]
    rfl
  · rw [if_neg hstatus, if_neg hstatus]
    rfl

theorem traceSummary_startedAt {traceId : Str} {events : List Event} {fields : Fields}
    (h : (traceSummary traceId events).2 = .obj fields) :
    (∃ stamp m, Json.getField fields "startedAt" = stamp ∧ instant stamp = some m ∧
        (∃ event ∈ events, event.startedAt = stamp) ∧ IsLeast (starts events) m.utc) ∨
      Json.getField fields "startedAt" = .str [] ∧ starts events = ∅ := by
  cases hstarted : (traceSummary traceId events).1 with
  | none =>
      refine Or.inr ⟨?_, traceSummary_unread hstarted⟩
      cases h
      simp only [traceSummary] at hstarted
      simp only [hstarted]
      rfl
  | some m =>
      refine Or.inl ?_
      obtain ⟨first, hfirst, hm⟩ := Option.bind_eq_some_iff.mp hstarted
      have hleast := firstLeast_ordered hfirst
      refine ⟨first.startedAt, m, ?_, hm, ⟨first, hleast.mem.1, rfl⟩, starts_isLeast hleast hm⟩
      cases h
      simp only [hfirst, Option.bind_some, hm]
      rfl

theorem traceSummary_durationMs {traceId : Str} {events : List Event} {fields : Fields} (hne : events ≠ [])
    (htimed : ∀ event ∈ events, event.Timed) (h : (traceSummary traceId events).2 = .obj fields) :
    ∃ d longest, Json.getField fields "durationMs" = .float (.finite d) ∧
      IsGreatest (durations events) longest ∧ longest ≤ d.toRat ∧
      ((∃ start finish, IsLeast (starts events) start ∧ IsGreatest (ends events) finish ∧
        d.toRat = max longest ((finish - start : Int) / 1000)) ∨
      ends events = ∅ ∧ d.toRat = longest) := by
  have hfield : Json.getField fields "durationMs" =
      .float (flowDuration events (traceSummary traceId events).1) := by
    cases h
    rfl
  cases hstarted : (traceSummary traceId events).1 with
  | none =>
      obtain ⟨d, hd, hgreatest, -⟩ := longestDuration_isGreatest hne htimed
      refine ⟨d, d.toRat, ?_, hgreatest, le_rfl, Or.inr ⟨?_, rfl⟩⟩
      · rw [hfield, hstarted, flowDuration, hd]
      · exact ends_eq_empty (traceSummary_unread hstarted)
  | some start =>
      obtain ⟨d, longest, hd, hgreatest, hvalue⟩ := flowDuration_some hne htimed start
      refine ⟨d, longest, by rw [hfield, hstarted, hd], hgreatest, ?_⟩
      rcases hvalue with ⟨finish, hfinish, hvalue⟩ | ⟨hnone, hvalue⟩
      · exact ⟨hvalue ▸ le_max_left _ _,
          Or.inl ⟨start.utc, finish, traceSummary_start hstarted, hfinish, hvalue⟩⟩
      · exact ⟨hvalue.ge, Or.inr ⟨hnone, hvalue⟩⟩

theorem traceSummary_tells (traceId : Str) {events : List Event} (hne : events ≠ [])
    (htimed : ∀ event ∈ events, event.Timed) :
    ∃ fields, (traceSummary traceId events).2 = .obj fields ∧ TellsFlow traceId events fields := by
  obtain ⟨fields, hfields⟩ : ∃ fields, (traceSummary traceId events).2 = .obj fields := ⟨_, rfl⟩
  refine ⟨fields, hfields, ?_, ?_, traceSummary_failed hfields, traceSummary_status hne hfields,
    traceSummary_startedAt hfields, traceSummary_durationMs hne htimed hfields⟩
  · cases hfields
    rfl
  · cases hfields
    rfl

end Summary

section Order

variable [UnicodeData] [Calendar]

def Catalog.summary (c : Catalog) (traceId : Str) : Option Moment × Json :=
  traceSummary traceId (c.flow traceId)

-- The traces in the order of their summaries.
def Catalog.flowOrder (c : Catalog) : List Str :=
  ((distinct (c.events.map Event.traceId)).filter fun traceId => (c.summary traceId).1.isSome).insertionSort
      (fun a b => startKey (c.summary b) ≤ startKey (c.summary a)) ++
    (distinct (c.events.map Event.traceId)).filter fun traceId => (c.summary traceId).1.isNone

theorem traceSummaries_eq (c : Catalog) :
    c.traceSummaries = (c.flowOrder.map fun traceId => (c.summary traceId).2).take maxFleetTraces := by
  have hsummaries : (distinct (c.events.map Event.traceId)).map (fun traceId =>
      traceSummary traceId (c.events.filter fun event => event.traceId = traceId)) =
      (distinct (c.events.map Event.traceId)).map c.summary := rfl
  have htimed := List.map_insertionSort
    (fun a b => startKey (c.summary b) ≤ startKey (c.summary a))
    (fun a b : Option Moment × Json => startKey b ≤ startKey a) c.summary
    ((distinct (c.events.map Event.traceId)).filter fun traceId => (c.summary traceId).1.isSome)
    (fun _ _ _ _ => Iff.rfl)
  have hmap : c.flowOrder.map (fun traceId => (c.summary traceId).2) =
      (c.flowOrder.map c.summary).map Prod.snd := by
    rw [List.map_map]
    rfl
  rw [Catalog.traceSummaries, hsummaries, hmap, Catalog.flowOrder, List.map_append, htimed,
    List.filter_map, List.filter_map, List.map_take]
  rfl

theorem mem_flowOrder {c : Catalog} {traceId : Str} :
    traceId ∈ c.flowOrder ↔ ∃ event ∈ c.events, event.traceId = traceId := by
  rw [Catalog.flowOrder, List.mem_append, List.mem_insertionSort, List.mem_filter, List.mem_filter,
    ← and_or_left, mem_distinct, List.mem_map, and_iff_left]
  cases (c.summary traceId).1 with
  | none => exact Or.inr rfl
  | some m => exact Or.inl rfl

theorem nodup_flowOrder (c : Catalog) : c.flowOrder.Nodup := by
  have hdistinct := nodup_distinct (c.events.map Event.traceId)
  refine List.nodup_append'.mpr ⟨?_, hdistinct.filter _, ?_⟩
  · exact (List.perm_insertionSort _ _).nodup_iff.mpr (hdistinct.filter _)
  · intro traceId htimed huntimed
    have hsome := (List.mem_filter.mp ((List.mem_insertionSort _).mp htimed)).2
    have hnone := (List.mem_filter.mp huntimed).2
    rw [Option.isNone_iff_eq_none.mp hnone] at hsome
    cases hsome

-- A trace without a known start comes after every other.
theorem newer_of_unread {c : Catalog} {first second : Str} (h : (c.summary second).1 = none) :
    c.Newer first second := by
  intro t ht
  have hstarts := traceSummary_unread h
  exact absurd ht.1 (by rw [hstarts]; exact Set.notMem_empty t)

theorem newer_of_startKey {c : Catalog} {first second : Str} (hfirst : (c.summary first).1.isSome)
    (hsecond : (c.summary second).1.isSome)
    (h : startKey (c.summary second) ≤ startKey (c.summary first)) : c.Newer first second := by
  obtain ⟨s, hs⟩ := Option.isSome_iff_exists.mp hfirst
  obtain ⟨m, hm⟩ := Option.isSome_iff_exists.mp hsecond
  intro t ht
  rw [startKey, startKey, hs, hm] at h
  refine ⟨s.utc, traceSummary_start hs, ?_⟩
  rw [ht.unique (traceSummary_start hm)]
  exact h

theorem pairwise_flowOrder (c : Catalog) : c.flowOrder.Pairwise c.Newer := by
  have hunread {traceId : Str} (h : traceId ∈ (distinct (c.events.map Event.traceId)).filter
      fun traceId => (c.summary traceId).1.isNone) : (c.summary traceId).1 = none :=
    Option.isNone_iff_eq_none.mp (List.mem_filter.mp h).2
  have htimed {traceId : Str} (h : traceId ∈ ((distinct (c.events.map Event.traceId)).filter
      fun traceId => (c.summary traceId).1.isSome).insertionSort
        fun a b => startKey (c.summary b) ≤ startKey (c.summary a)) : (c.summary traceId).1.isSome :=
    (List.mem_filter.mp ((List.mem_insertionSort _).mp h)).2
  refine List.pairwise_append.mpr ⟨?_, ?_, fun first _ second hsecond => newer_of_unread (hunread hsecond)⟩
  · have hsorted := List.pairwise_insertionSort
      (fun a b => startKey (c.summary b) ≤ startKey (c.summary a))
      ((distinct (c.events.map Event.traceId)).filter fun traceId => (c.summary traceId).1.isSome)
    exact hsorted.imp_of_mem fun hfirst hsecond hle =>
      newer_of_startKey (htimed hfirst) (htimed hsecond) hle
  · refine List.pairwise_of_forall_mem_list fun first _ second hsecond => ?_
    exact newer_of_unread (hunread hsecond)

-- Every flow is summed up truthfully, and the newest twenty summaries are given.
theorem traceSummaries_recount (c : Catalog) (htimed : ∀ event ∈ c.events, event.Timed) :
    ∃ order summaries, c.Recounts order summaries ∧ c.traceSummaries = summaries.take 20 := by
  refine ⟨c.flowOrder, c.flowOrder.map fun traceId => (c.summary traceId).2,
    ⟨nodup_flowOrder c, fun _ => mem_flowOrder, pairwise_flowOrder c, ?_⟩, traceSummaries_eq c⟩
  rw [List.forall₂_map_right_iff, List.forall₂_same]
  intro traceId htrace
  obtain ⟨event, hevent, hid⟩ := mem_flowOrder.mp htrace
  refine traceSummary_tells traceId ?_ fun event hevent => htimed event (List.mem_filter.mp hevent).1
  exact List.ne_nil_of_mem (List.mem_filter.mpr ⟨hevent, by simpa using hid⟩)

end Order

section Example

open Rfc3339 in
def readMoment : Reader Moment := do
  let days ← fullDate
  oneOf ['T']
  let micros ← partialTime
  let offset ← timeOffset
  return ⟨days * 86400000000 + micros, offset * 60000000⟩

@[reducible] def rfc3339Calendar : Calendar :=
  ⟨fun text => match readMoment text with
    | some (m, []) => some m
    | _ => none⟩

def timedEvent (traceId status startedAt : Str) (milliseconds : Int) : Event :=
  ⟨traceId, "", .null, "billing", "pay", status, .str startedAt,
    .finite (Decimal.ofParts milliseconds 0)⟩

-- Two failures start together, one start is unreadable, and one end is past the
-- range of `datetime`.
def mixedFlows : Catalog :=
  { Catalog.empty with events := [
      timedEvent "a" "ok" "2026-01-01T10:00:01Z" 250,
      timedEvent "a" "timeout" "2026-01-01T11:30:00.5+01:30" 100,
      timedEvent "b" "not-found" "soon" 900,
      timedEvent "a" "conflict" "2026-01-01T10:00:00.500000Z" 100,
      timedEvent "c" "ok" "9999-12-31T23:59:59Z" 5000,
      timedEvent "a" "conflict" "later" 40] }

theorem mixedFlows_recount :
    letI := UnicodeData.ascii
    letI := rfc3339Calendar
    mixedFlows.traceSummaries.map (fun summary => (Json.getField (asObject summary) "traceId",
        Json.getField (asObject summary) "status", Json.getField (asObject summary) "durationMs")) =
        [(.str "c", .str "ok", .float (.finite (Decimal.ofParts 5000 0))),
          (.str "a", .str "timeout", .float (.finite (Decimal.ofParts 750 0))),
          (.str "b", .str "not-found", .float (.finite (Decimal.ofParts 900 0)))] ∧
      ∃ order summaries, mixedFlows.Recounts order summaries ∧
        mixedFlows.traceSummaries = summaries.take 20 := by
  let _ := UnicodeData.ascii
  let _ := rfc3339Calendar
  refine ⟨by decide +kernel, traceSummaries_recount mixedFlows ?_⟩
  intro event hevent
  have hnumber : ∀ event ∈ mixedFlows.events, ∃ n ∈ [250, 100, 900, 5000, 40],
      event.durationMs = .finite (Decimal.ofParts n 0) ∧ 0 ≤ (Decimal.ofParts n 0).mantissa := by
    decide +kernel
  obtain ⟨n, -, hn, hnonneg⟩ := hnumber event hevent
  exact ⟨Decimal.ofParts n 0, hn, hnonneg⟩

end Example

end Benzene.Mesh
