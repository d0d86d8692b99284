import Benzene.Mesh.Merge
import Mathlib.Algebra.BigOperators.Fin

namespace Benzene.Mesh

open Benzene.Data Benzene.Results

section Payload

def TextMember (issue : Fields) (key : Str) : Prop :=
  ∃ value : Option Str, Json.getField issue key = optionalJson value

-- An issue whose window is made of text, as far as it is there.
structure TextWindow (issue : Fields) : Prop where
  firstSeen : TextMember issue "firstSeen"
  lastSeen : TextMember issue "lastSeen"

-- What the collector reads of a reported issue.
theorem toPayload_fingerprint (issue : Issue) :
    Json.getField issue.toPayload "fingerprint" = .str issue.fingerprint := by
  simp [Issue.toPayload, Json.getField, Json.field]

theorem toPayload_count (issue : Issue) : countOf issue.toPayload = .int issue.count := by
  simp [Issue.toPayload, countOf, Json.field]

theorem toPayload_textWindow (issue : Issue) : TextWindow issue.toPayload := by
  have hread (value : Option Str) : ((value.map Json.str).getD .null) = optionalJson value := by
    cases value <;> rfl
  constructor
  · refine ⟨issue.firstSeen, ?_⟩
    simp [Issue.toPayload, Json.getField, Json.field, Entries.get?_append, Json.get?_fieldIf,
      Json.get?_optionalField, hread]
  · refine ⟨issue.lastSeen, ?_⟩
    simp [Issue.toPayload, Json.getField, Json.field, Entries.get?_append, Json.get?_fieldIf,
      Json.get?_optionalField, hread]

theorem toPayload_exemplars (issue : Issue) :
    ∃ exemplars, incomingExemplars issue.toPayload = .ok exemplars := by
  refine ⟨issue.exemplarTraceIds.map .str, ?_⟩
  have hmember : Entries.get? ("exemplarTraceIds" : Str) issue.toPayload =
      if issue.exemplarTraceIds ≠ [] then some (.arr (issue.exemplarTraceIds.map .str)) else none := by
    simp [Issue.toPayload, Json.field, Entries.get?_append, Json.get?_fieldIf, Json.get?_optionalField]
  unfold incomingExemplars
  rw [hmember]
  by_cases h : issue.exemplarTraceIds = [] <;> simp [h, Json.iter]

end Payload

section Merging

theorem textMember_congr {a b : Fields} {key : Str} (h : Entries.get? key a = Entries.get? key b)
    (hb : TextMember b key) : TextMember a key := by
  obtain ⟨value, hvalue⟩ := hb
  exact ⟨value, by rw [← hvalue, Json.getField, Json.getField, h]⟩

-- Text compares with text, so a window of text is widened without an error.
theorem widen_text {pick : Json → Json → Except PyError Json}
    (hpick : ∀ a b, ∃ c, pick (.str a) (.str b) = .ok (.str c)) {key : Str} {issue existing : Fields}
    (hissue : TextMember issue key) (hexisting : TextMember existing key) :
    ∃ widened, widen pick key issue existing = (.ok (), widened) ∧ TextMember widened key := by
  obtain ⟨incoming, hincoming⟩ := hissue
  cases incoming with
  | none => exact ⟨existing, by simp only [widen, hincoming, optionalJson], hexisting⟩
  | some seen =>
      obtain ⟨current, hcurrent⟩ := hexisting
      have hor : ∃ text, Json.orElse (Json.getField existing key) (.str seen) = .str text := by
        rw [hcurrent]
        unfold Json.orElse
        cases current with
        | none => exact ⟨seen, rfl⟩
        | some text =>
            by_cases htext : text = []
            · exact ⟨seen, by simp [optionalJson, Json.truthy, htext]⟩
            · exact ⟨text, by simp [optionalJson, Json.truthy, htext]⟩
      obtain ⟨text, htext⟩ := hor
      obtain ⟨picked, hpicked⟩ := hpick text seen
      refine ⟨Entries.set key (.str picked) existing, ?_, some picked, ?_⟩
      · simp only [widen, hincoming, optionalJson, htext, hpicked]
      · simp [Json.getField, optionalJson]

theorem min_text (a b : Str) : ∃ c, Json.min (.str a) (.str b) = .ok (.str c) := by
  unfold Json.min
  by_cases h : b < a
  · exact ⟨b, by simp [Json.lt, h, bind, Except.bind, pure, Except.pure]⟩
  · exact ⟨a, by simp [Json.lt, h, bind, Except.bind, pure, Except.pure]⟩

theorem max_text (a b : Str) : ∃ c, Json.max (.str a) (.str b) = .ok (.str c) := by
  unfold Json.max
  by_cases h : a < b
  · exact ⟨b, by simp [Json.lt, h, bind, Except.bind, pure, Except.pure]⟩
  · exact ⟨a, by simp [Json.lt, h, bind, Except.bind, pure, Except.pure]⟩

theorem widenWindow_text {issue existing : Fields} (hissue : TextWindow issue)
    (hexisting : TextWindow existing) :
    ∃ widened, widenWindow issue existing = (.ok (), widened) ∧ TextWindow widened := by
  obtain ⟨first, hfirst, hfirstText⟩ := widen_text min_text hissue.firstSeen hexisting.firstSeen
  have hlastKept : Entries.get? ("lastSeen" : Str) first = Entries.get? ("lastSeen" : Str) existing := by
    have hkept : Entries.get? ("lastSeen" : Str) (widen Json.min "firstSeen" issue existing).2 = _ :=
      get?_widen _ (by simp) _ _
    rwa [hfirst] at hkept
  obtain ⟨last, hlast, hlastText⟩ := widen_text max_text hissue.lastSeen
    (textMember_congr hlastKept hexisting.lastSeen)
  have hfirstKept : Entries.get? ("firstSeen" : Str) last = Entries.get? ("firstSeen" : Str) first := by
    have hkept : Entries.get? ("firstSeen" : Str) (widen Json.max "lastSeen" issue first).2 = _ :=
      get?_widen _ (by simp) _ _
    rwa [hlast] at hkept
  refine ⟨last, ?_, textMember_congr hfirstKept hfirstText, hlastText⟩
  rw [widenWindow, Py.bind_ok hfirst, hlast]

-- The issues as reported batches leave them.
structure Reported (issues : Dict Str Fields) : Prop where
  stored : StoredIssues issues
  window : ∀ fingerprint issue, issues.get? fingerprint = some issue → TextWindow issue

def countIn (issue : Fields) : Int :=
  match Entries.get? ("count" : Str) issue with
  | some (.int n) => n
  | _ => 0

-- The collector's count for a fingerprint, 0 for one it does not hold.
def heldCount (issues : Dict Str Fields) (fingerprint : Str) : Int :=
  (issues.get? fingerprint).elim 0 countIn

theorem heldCount_set (issues : Dict Str Fields) (fingerprint other : Str) (issue : Fields) :
    heldCount (issues.set fingerprint issue) other =
      if fingerprint = other then countIn issue else heldCount issues other := by
  unfold heldCount
  rw [Dict.get?_set]
  split <;> rfl

variable [UnicodeData]

-- What a merge needs to know of an issue: it has a count to add and a readable window.
structure Counted (issue : Fields) (n : Int) : Prop where
  exemplars : ∃ exemplars, incomingExemplars issue = .ok exemplars
  count : safeInt (countOf issue) = .ok n
  window : TextWindow issue

theorem toPayload_counted (issue : Issue) : Counted issue.toPayload issue.count where
  exemplars := toPayload_exemplars issue
  count := by
    rw [toPayload_count]
    rfl
  window := toPayload_textWindow issue

-- Such an issue merges without an error and adds its count to its fingerprint.
theorem mergeIssue_counted {issues : Dict Str Fields} (h : Reported issues) {issue : Fields} {n : Int}
    (hissue : Counted issue n) (fingerprint : Str) :
    ∃ merged, mergeIssue fingerprint issue issues = (.ok (), issues.set fingerprint merged) ∧
      TextWindow merged ∧ countIn merged = heldCount issues fingerprint + n := by
  obtain ⟨⟨exemplars, hex⟩, hcount, hwindow⟩ := hissue
  cases hget : issues.get? fingerprint with
  | none =>
      rw [mergeIssue_none hex hget, newIssue_eq, hcount]
      refine ⟨_, rfl, ⟨?_, ?_⟩, ?_⟩
      · exact textMember_congr (by simp [get?_mergeErrorDetail, Entries.get?_erase, Entries.get?_set])
          hwindow.firstSeen
      · exact textMember_congr (by simp [get?_mergeErrorDetail, Entries.get?_erase, Entries.get?_set])
          hwindow.lastSeen
      · simp [countIn, heldCount, hget, get?_mergeErrorDetail, Entries.get?_erase, Entries.get?_set]
  | some existing =>
      obtain ⟨⟨m, hm⟩, ⟨held, hheld⟩⟩ := h.stored fingerprint existing hget
      have hexisting := h.window fingerprint existing hget
      rw [mergeIssue_some hex hget, mergeExisting_eq hm hheld, hcount]
      dsimp only
      generalize hbase : aggregate (overwrite existing issue) issue (m + n)
        (combinedExemplars held exemplars) = base
      have hseen {key : Str} (hkey : key = "firstSeen" ∨ key = "lastSeen") :
          Entries.get? key base = Entries.get? key existing := by
        rcases hkey with rfl | rfl <;> rw [← hbase, get?_aggregate _ _ _ _ (by simp)] <;>
          simp [get?_overwrite_of_mem, aggregatedIssueFields]
      have hbaseWindow : TextWindow base :=
        ⟨textMember_congr (hseen (Or.inl rfl)) hexisting.firstSeen,
          textMember_congr (hseen (Or.inr rfl)) hexisting.lastSeen⟩
      obtain ⟨widened, hwidened, htext⟩ := widenWindow_text hwindow hbaseWindow
      rw [hwidened]
      refine ⟨widened, rfl, htext, ?_⟩
      have hcountKept : Entries.get? ("count" : Str) (widenWindow issue base).2 =
          some (.int (m + n)) := by
        rw [get?_widenWindow (by simp) (by simp), ← hbase, get?_aggregate _ _ _ _ (by simp)]
        simp
      rw [hwidened] at hcountKept
      simp only [countIn, hcountKept, heldCount, hget, Option.elim_some, hm]

theorem mergeIssue_reported {issues : Dict Str Fields} (h : Reported issues) {issue : Fields} {n : Int}
    (hissue : Counted issue n) (fingerprint : Str) :
    ∃ issues', mergeIssue fingerprint issue issues = (.ok (), issues') ∧ Reported issues' ∧
      ∀ other, heldCount issues' other = heldCount issues other + if fingerprint = other then n else 0 := by
  obtain ⟨merged, hmerge, hwindow, hcount⟩ := mergeIssue_counted h hissue fingerprint
  have hstored := mergeIssue_storedIssues fingerprint issue issues h.stored
  rw [hmerge] at hstored
  refine ⟨issues.set fingerprint merged, hmerge, ⟨hstored, ?_⟩, fun other => ?_⟩
  · intro other held hget
    rw [Dict.get?_set] at hget
    split at hget
    · cases hget
      exact hwindow
    · exact h.window other held hget
  · rw [heldCount_set]
    split
    · rename_i heq
      rw [hcount, heq]
    · simp

-- One reported issue, as an entry of a batch.
theorem ingestIssue_reported {issues : Dict Str Fields} (h : Reported issues) {issue : Issue}
    (hfingerprint : issue.fingerprint ≠ []) :
    ∃ issues', ingestIssue (.obj issue.toPayload) issues = (.ok 1, issues') ∧ Reported issues' ∧
      ∀ other, heldCount issues' other =
        heldCount issues other + if issue.fingerprint = other then issue.count else 0 := by
  obtain ⟨issues', hmerge, hreported, hcount⟩ :=
    mergeIssue_reported h (toPayload_counted issue) issue.fingerprint
  have htruthy : (Json.str issue.fingerprint).truthy = true := by
    simpa [Json.truthy] using hfingerprint
  refine ⟨issues', ?_, hreported, hcount⟩
  simp only [ingestIssue, Json.get, Py.bind_apply, Py.lift_apply, toPayload_fingerprint, htruthy,
    if_true, Json.text, asObject, hmerge, Py.pure_apply]

end Merging

section Batches

-- What a batch reports for a fingerprint.
def IssueBatch.count (batch : IssueBatch) (fingerprint : Str) : Int :=
  ((batch.issues.filter fun issue => issue.fingerprint = fingerprint).map Issue.count).sum

def issuesPost (batch : IssueBatch) : Post := ⟨.issues, batch.toPayload⟩

variable [UnicodeData]

theorem mapEach_reported {issues : Dict Str Fields} (h : Reported issues) {reported : List Issue}
    (hreported : ∀ issue ∈ reported, issue.fingerprint ≠ []) :
    ∃ results issues', Py.mapEach ingestIssue (reported.map fun issue => .obj issue.toPayload) issues =
        (.ok results, issues') ∧ Reported issues' ∧
      ∀ fingerprint, heldCount issues' fingerprint = heldCount issues fingerprint +
        ((reported.filter fun issue => issue.fingerprint = fingerprint).map Issue.count).sum := by
  induction reported generalizing issues with
  | nil => exact ⟨[], issues, rfl, h, fun _ => by simp⟩
  | cons issue rest ih =>
      obtain ⟨issues₁, hissue, h₁, hcount₁⟩ :=
        ingestIssue_reported h (hreported issue List.mem_cons_self)
      obtain ⟨results, issues₂, hrest, h₂, hcount₂⟩ :=
        ih h₁ fun other hother => hreported other (List.mem_cons_of_mem _ hother)
      refine ⟨1 :: results, issues₂, ?_, h₂, fun fingerprint => ?_⟩
      · rw [List.map_cons, Py.mapEach_cons, hissue]
        dsimp only
        rw [hrest]
      · rw [hcount₂, hcount₁]
        by_cases heq : issue.fingerprint = fingerprint
        · simp only [heq, if_true, List.filter_cons, decide_true, List.map_cons, List.sum_cons]
          omega
        · simp [heq]

-- An accepted batch adds what it reports.
theorem ingest_issuesPost {c : Catalog} (h : Reported c.issues) {batch : IssueBatch}
    (hservice : batch.service ≠ []) (hissues : ∀ issue ∈ batch.issues, issue.fingerprint ≠ []) :
    Reported (c.ingest (issuesPost batch)).issues ∧ ∀ fingerprint,
      heldCount (c.ingest (issuesPost batch)).issues fingerprint =
        heldCount c.issues fingerprint + batch.count fingerprint := by
  obtain ⟨results, issues, hrun, hreported, hcount⟩ := mapEach_reported h hissues
  have hrequire : require batch.toPayload "service" = .ok batch.service := by
    simp [require, IssueBatch.toPayload, Json.getField, Json.field, Json.truthy, hservice, Json.text]
  have hiter : Json.iter (Json.orElse (Json.getField batch.toPayload "issues") (.arr [])) =
      .ok (batch.issues.map fun issue => .obj issue.toPayload) := by
    cases hempty : batch.issues <;>
      simp [IssueBatch.toPayload, Json.getField, Json.field, Json.orElse, Json.truthy, Json.iter, hempty]
  have hingest : (c.ingest (issuesPost batch)).issues = issues := by
    simp only [Catalog.ingest, Feed.ingest, issuesPost, ingestIssues, updateService, Py.bind_apply,
      Py.lift_apply, hrequire, Py.modify_apply, hiter, raises, Except.mapError, onIssues_apply,
      Catalog.setService, hrun, Py.pure_apply]
  rw [hingest]
  exact ⟨hreported, hcount⟩

end Batches

section Aggregators

-- The keys of an aggregator are the fingerprints of its issues.
structure Keyed (service : Str) (aggregator : IssueAggregator) : Prop where
  service : aggregator.service = service
  fingerprint : ∀ key issue, aggregator.issues.get? key = some issue →
    issue.fingerprint = key ∧ key ≠ []

-- What an aggregator has counted since its last flush.
def IssueAggregator.pending (aggregator : IssueAggregator) (fingerprint : Str) : Int :=
  (aggregator.issues.get? fingerprint).elim 0 Issue.count

theorem keyed_new (service : Str) : Keyed service (IssueAggregator.new service) :=
  ⟨rfl, fun _ _ h => by simp [IssueAggregator.new] at h⟩

theorem pending_new (service fingerprint : Str) :
    (IssueAggregator.new service).pending fingerprint = 0 := rfl

theorem counted_fingerprint {service : Str} {aggregator : IssueAggregator} (h : Keyed service aggregator)
    (key seen : Str) (occurrence : Occurrence) :
    ((aggregator.issues.get? key).getD
      (IssueAggregator.opened aggregator.service key seen occurrence)).fingerprint = key := by
  cases hget : aggregator.issues.get? key with
  | none => rfl
  | some held => exact (h.fingerprint key held hget).1

-- A record call returns the issue of the fingerprint it hashes.
theorem record_fingerprint [UnicodeData] {service : Str} {aggregator aggregator' : IssueAggregator}
    (h : Keyed service aggregator) {occurrence : Occurrence} {issue : Issue}
    (hrecord : aggregator.record occurrence = .ok (issue, aggregator')) :
    IssueAggregator.occurrenceFingerprint service occurrence = .ok issue.fingerprint := by
  unfold IssueAggregator.record at hrecord
  rw [h.service] at hrecord
  cases hfp : IssueAggregator.occurrenceFingerprint service occurrence with
  | error error =>
      rw [hfp] at hrecord
      cases hrecord
  | ok key =>
      rw [hfp] at hrecord
      cases hrecord
      have hkey := counted_fingerprint h key (textOr occurrence.at_ occurrence.now) occurrence
      rw [h.service] at hkey
      exact congrArg Except.ok hkey.symm

-- One record call counts one occurrence of the fingerprint it returns.
theorem record_pending [UnicodeData] {service : Str} {aggregator aggregator' : IssueAggregator}
    (h : Keyed service aggregator) {occurrence : Occurrence} {issue : Issue}
    (hrecord : aggregator.record occurrence = .ok (issue, aggregator')) :
    Keyed service aggregator' ∧ ∀ fingerprint, aggregator'.pending fingerprint =
      aggregator.pending fingerprint + if issue.fingerprint = fingerprint then 1 else 0 := by
  unfold IssueAggregator.record at hrecord
  cases hfp : IssueAggregator.occurrenceFingerprint aggregator.service occurrence with
  | error error =>
      rw [hfp] at hrecord
      cases hrecord
  | ok key =>
      rw [hfp] at hrecord
      cases hrecord
      have hkey : key ≠ [] := by
        have hlength := issueFingerprint_length hfp
        rintro rfl
        cases hlength
      -- The issue that is counted: the held one, or the one this call opens.
      generalize hopened : IssueAggregator.opened aggregator.service key
        (textOr occurrence.at_ occurrence.now) occurrence = opened
      have hcount : ((aggregator.issues.get? key).getD opened).count = aggregator.pending key := by
        unfold IssueAggregator.pending
        cases aggregator.issues.get? key with
        | none => simp [← hopened, IssueAggregator.opened]
        | some held => rfl
      have hfingerprint : ((aggregator.issues.get? key).getD opened).fingerprint = key := by
        rw [← hopened]
        exact counted_fingerprint h key _ occurrence
      refine ⟨⟨h.service, fun other issue hget => ?_⟩, fun fingerprint => ?_⟩
      · dsimp only at hget
        rw [Dict.get?_set] at hget
        split at hget
        · rename_i heq
          cases hget
          exact ⟨hfingerprint.trans heq, heq ▸ hkey⟩
        · exact h.fingerprint other issue hget
      · simp only [IssueAggregator.pending, Dict.get?_set, hfingerprint]
        split
        · rename_i heq
          rw [← heq]
          exact congrArg (· + 1) hcount
        · simp

-- The sum over the entries that have a key, where each key occurs once.
theorem sum_filter_key {α : Type} (entries : List (Str × α)) (hnodup : (Entries.keys entries).Nodup)
    (count : α → Int) (key : Str) :
    ((entries.filter fun entry => entry.1 = key).map fun entry => count entry.2).sum =
      (Entries.get? key entries).elim 0 count := by
  induction entries with
  | nil => rfl
  | cons entry rest ih =>
      obtain ⟨k, v⟩ := entry
      rw [Entries.keys_cons, List.nodup_cons] at hnodup
      by_cases hk : k = key
      · have hnone : Entries.get? key rest = none :=
          (Entries.get?_eq_none_iff key rest).mpr (hk ▸ hnodup.1)
        simp [hk, ih hnodup.2, hnone]
      · simp [hk, ih hnodup.2]

-- A flush hands over what was pending.
theorem flush_count {service : Str} {aggregator : IssueAggregator} (h : Keyed service aggregator)
    (fingerprint : Str) : aggregator.flush.1.count fingerprint = aggregator.pending fingerprint := by
  rw [IssueAggregator.pending, Dict.get?, ← sum_filter_key _ aggregator.issues.nodup Issue.count]
  unfold IssueBatch.count IssueAggregator.flush
  rw [List.filter_map, List.map_map]
  have hsame : (aggregator.issues.entries.filter fun entry => entry.2.fingerprint = fingerprint) =
      aggregator.issues.entries.filter fun entry => entry.1 = fingerprint := by
    refine List.filter_congr fun entry hentry => ?_
    have hkey := h.fingerprint entry.1 entry.2 ((Dict.mem_entries_iff _ _ _).mp hentry)
    rw [hkey.1]
  rw [← hsame]
  rfl

theorem flush_fingerprint {service : Str} {aggregator : IssueAggregator} (h : Keyed service aggregator) :
    ∀ issue ∈ aggregator.flush.1.issues, issue.fingerprint ≠ [] := by
  intro issue hissue
  obtain ⟨⟨key, held⟩, hmem, rfl⟩ := List.mem_map.mp hissue
  have hkey := h.fingerprint key held ((Dict.mem_entries_iff _ _ _).mp hmem)
  exact fun hnil => hkey.2 (hkey.1 ▸ hnil)

end Aggregators

section Flow

-- Some aggregators of one service, the batches they flushed that are still to be
-- delivered, the collector they are delivered to, and the fingerprint of every
-- record call that returned, in order.
structure Flow (n : Nat) where
  aggregators : Fin n → IssueAggregator
  inFlight : List IssueBatch
  collector : Collector
  recorded : List Str

inductive Action (n : Nat)
  | record (i : Fin n) (occurrence : Occurrence)
  | flush (i : Fin n)
  | deliver (k : Nat)

namespace Flow

def start (n : Nat) (service : Str) : Flow n :=
  ⟨fun _ => IssueAggregator.new service, [], Collector.empty, []⟩

variable {n : Nat}

-- Nothing is left to flush or to deliver.
def Settled (s : Flow n) : Prop := (∀ i, (s.aggregators i).issues.entries = []) ∧ s.inFlight.length = 0

instance (s : Flow n) : Decidable s.Settled := by
  unfold Settled
  infer_instance

-- Where the occurrences of a fingerprint are.
def total (s : Flow n) (fingerprint : Str) : Int :=
  ∑ i, (s.aggregators i).pending fingerprint +
    (s.inFlight.map fun batch => batch.count fingerprint).sum +
    heldCount s.collector.catalog.issues fingerprint

-- What every state of a run keeps: each recorded occurrence is in one place.
structure Conserves (service : Str) (s : Flow n) : Prop where
  keyed : ∀ i, Keyed service (s.aggregators i)
  service : ∀ batch ∈ s.inFlight, batch.service = service
  fingerprint : ∀ batch ∈ s.inFlight, ∀ issue ∈ batch.issues, issue.fingerprint ≠ []
  reported : Reported s.collector.catalog.issues
  conserved : ∀ fingerprint, s.total fingerprint = s.recorded.count fingerprint

theorem conserves_start (n : Nat) (service : Str) : (start n service).Conserves service where
  keyed _ := keyed_new service
  service _ h := by simp [start] at h
  fingerprint _ h := by simp [start] at h
  reported := ⟨storedIssues_empty, fun _ _ h => by simp [start, Collector.empty, Catalog.empty] at h⟩
  conserved _ := by
    simp [start, total, pending_new, Collector.empty, Catalog.empty, heldCount]

theorem sum_update {α : Type} (count : α → Int) (values : Fin n → α) (i : Fin n) (value : α) :
    ∑ j, count (Function.update values i value j) + count (values i) =
      ∑ j, count (values j) + count value := by
  have hothers : ∑ j ∈ Finset.univ.erase i, count (Function.update values i value j) =
      ∑ j ∈ Finset.univ.erase i, count (values j) := by
    refine Finset.sum_congr rfl fun j hj => ?_
    rw [Function.update_of_ne (Finset.ne_of_mem_erase hj)]
  have hnew := Finset.add_sum_erase Finset.univ
    (fun j => count (Function.update values i value j)) (Finset.mem_univ i)
  have hold := Finset.add_sum_erase Finset.univ (fun j => count (values j)) (Finset.mem_univ i)
  simp only [Function.update_self] at hnew
  omega

-- Taking the batch at k out takes its count out.
theorem sum_eraseIdx {α : Type} (count : α → Int) {batches : List α} {k : Nat} {batch : α}
    (h : batches[k]? = some batch) :
    ((batches.eraseIdx k).map count).sum + count batch = (batches.map count).sum := by
  induction batches generalizing k with
  | nil => simp at h
  | cons head rest ih =>
      cases k with
      | zero =>
          cases h
          simp [Int.add_comm]
      | succ k =>
          have hrest := ih (k := k) (by simpa using h)
          simp only [List.eraseIdx_cons_succ, List.map_cons, List.sum_cons]
          omega

variable [UnicodeData]

def step (s : Flow n) : Action n → Flow n
  | .record i occurrence =>
      match (s.aggregators i).record occurrence with
      | .ok (issue, aggregator) => { s with
          aggregators := Function.update s.aggregators i aggregator
          recorded := s.recorded ++ [issue.fingerprint] }
      | .error _ => s
  | .flush i => { s with
      aggregators := Function.update s.aggregators i (s.aggregators i).flush.2
      inFlight := s.inFlight ++ [(s.aggregators i).flush.1] }
  | .deliver k =>
      match s.inFlight[k]? with
      | some batch => { s with
          inFlight := s.inFlight.eraseIdx k
          collector := (s.collector.ingest (issuesPost batch)).2 }
      | none => s

def run (s : Flow n) (actions : List (Action n)) : Flow n := actions.foldl step s

theorem conserves_record {service : Str} {s : Flow n} (h : s.Conserves service) (i : Fin n)
    (occurrence : Occurrence) : (s.step (.record i occurrence)).Conserves service := by
  cases hrecord : (s.aggregators i).record occurrence with
  | error error =>
      simp only [step, hrecord]
      exact h
  | ok recorded =>
      obtain ⟨issue, aggregator⟩ := recorded
      simp only [step, hrecord]
      obtain ⟨hkeyed, hpending⟩ := record_pending (h.keyed i) hrecord
      refine ⟨fun j => ?_, h.service, h.fingerprint, h.reported, fun fingerprint => ?_⟩
      · by_cases hj : j = i
        · subst hj
          simpa using hkeyed
        · simpa [hj] using h.keyed j
      · have hsum := sum_update (fun held => held.pending fingerprint) s.aggregators i aggregator
        have htotal := h.conserved fingerprint
        rw [hpending] at hsum
        have hcount : (s.recorded ++ [issue.fingerprint]).count fingerprint =
            s.recorded.count fingerprint + if issue.fingerprint = fingerprint then 1 else 0 := by
          rw [List.count_append, List.count_singleton]
          simp [beq_iff_eq]
        simp only [total] at htotal ⊢
        rw [hcount, Nat.cast_add, ← htotal]
        split at hsum
        · rw [if_pos ‹_›, Nat.cast_one]
          omega
        · rw [if_neg ‹_›, Nat.cast_zero]
          omega

theorem conserves_flush {service : Str} {s : Flow n} (h : s.Conserves service) (i : Fin n) :
    (s.step (.flush i)).Conserves service := by
  have hkeyed := h.keyed i
  refine ⟨fun j => ?_, ?_, ?_, h.reported, fun fingerprint => ?_⟩
  · by_cases hj : j = i
    · subst hj
      simpa [step, IssueAggregator.flush, hkeyed.service] using keyed_new service
    · simpa [step, hj] using h.keyed j
  · intro batch hbatch
    rcases List.mem_append.mp hbatch with hold | hnew
    · exact h.service batch hold
    · rw [List.mem_singleton.mp hnew]
      exact hkeyed.service
  · intro batch hbatch
    rcases List.mem_append.mp hbatch with hold | hnew
    · exact h.fingerprint batch hold
    · rw [List.mem_singleton.mp hnew]
      exact flush_fingerprint hkeyed
  · have hsum := sum_update (fun held => held.pending fingerprint) s.aggregators i
      (s.aggregators i).flush.2
    have hcount := flush_count hkeyed fingerprint
    have hempty : (s.aggregators i).flush.2.pending fingerprint = 0 := rfl
    have htotal := h.conserved fingerprint
    simp only [total, step, List.map_append, List.map_cons, List.map_nil, List.sum_append,
      List.sum_cons, List.sum_nil] at htotal ⊢
    omega

theorem conserves_deliver {service : Str} (hservice : service ≠ []) {s : Flow n}
    (h : s.Conserves service) (k : Nat) : (s.step (.deliver k)).Conserves service := by
  cases hbatch : s.inFlight[k]? with
  | none =>
      simp only [step, hbatch]
      exact h
  | some batch =>
    simp only [step, hbatch]
    have hmem := List.mem_of_getElem? hbatch
    have hrest {other : IssueBatch} (hother : other ∈ s.inFlight.eraseIdx k) : other ∈ s.inFlight :=
      List.mem_of_mem_eraseIdx hother
    obtain ⟨hreported, hheld⟩ := ingest_issuesPost h.reported
      (h.service batch hmem ▸ hservice) (h.fingerprint batch hmem)
    refine ⟨h.keyed, fun other hother => h.service other (hrest hother),
      fun other hother => h.fingerprint other (hrest hother), ?_, fun fingerprint => ?_⟩
    · rw [Collector.ingest_catalog]
      exact hreported
    · have htotal := h.conserved fingerprint
      have hsum := sum_eraseIdx (fun other => other.count fingerprint) hbatch
      simp only [total, Collector.ingest_catalog, hheld] at htotal ⊢
      omega

theorem conserves_run {service : Str} (hservice : service ≠ []) {s : Flow n}
    (h : s.Conserves service) (actions : List (Action n)) : (s.run actions).Conserves service := by
  induction actions generalizing s with
  | nil => exact h
  | cons action actions ih =>
      refine ih ?_
      cases action with
      | record i occurrence => exact conserves_record h i occurrence
      | flush i => exact conserves_flush h i
      | deliver k => exact conserves_deliver hservice h k

-- Issue counts are conserved end to end.
theorem run_heldCount (n : Nat) (service : Str) (hservice : service ≠ [])
    (actions : List (Action n)) (hsettled : ((start n service).run actions).Settled)
    (fingerprint : Str) :
    heldCount ((start n service).run actions).collector.catalog.issues fingerprint =
      ((start n service).run actions).recorded.count fingerprint := by
  have hconserved := (conserves_run hservice (conserves_start n service) actions).conserved fingerprint
  obtain ⟨hflushed, hdelivered⟩ := hsettled
  have hpending (i : Fin n) :
      (((start n service).run actions).aggregators i).pending fingerprint = 0 := by
    simp [IssueAggregator.pending, Dict.get?, hflushed i]
  rw [List.length_eq_zero_iff] at hdelivered
  simpa [total, hpending, hdelivered] using hconserved

end Flow

end Flow

section Example

open Benzene.Mesh.Flow

def timeout : Occurrence where
  topic := "orders"
  status := "timeout"
  version := "1"
  transport := none
  exceptionType := none
  traceId := none
  resolutionHint := none
  at_ := none
  errors := []
  now := "2024-01-01T00:00:00Z"

-- Two aggregators count the same issue and their batches overtake each other.
def overtaking : List (Action 2) :=
  [.record 0 timeout, .record 1 timeout, .flush 0, .record 0 timeout, .flush 1, .flush 0,
    .deliver 2, .deliver 0, .deliver 0]

theorem overtaking_heldCount :
    letI := UnicodeData.ascii
    ((start 2 "billing").run overtaking).recorded.length = 3 ∧
      ∀ fingerprint,
        heldCount ((start 2 "billing").run overtaking).collector.catalog.issues fingerprint =
          ((start 2 "billing").run overtaking).recorded.count fingerprint := by
  let _ := UnicodeData.ascii
  have hsettled : ((start 2 "billing").run overtaking).Settled := by decide +kernel
  exact ⟨by decide +kernel,
    @run_heldCount UnicodeData.ascii 2 "billing" (by decide) overtaking hsettled⟩

-- The collector rejects the batches of a service without a name.
theorem nameless_heldCount :
    letI := UnicodeData.ascii
    let s := (start 1 []).run [.record 0 timeout, .flush 0, .deliver 0]
    s.Settled ∧ ∃ fingerprint,
      heldCount s.collector.catalog.issues fingerprint ≠ s.recorded.count fingerprint := by
  let _ := UnicodeData.ascii
  refine ⟨by decide +kernel,
    ((start 1 []).run [.record 0 timeout, .flush 0, .deliver 0]).recorded.headD [], ?_⟩
  decide +kernel

end Example

end Benzene.Mesh
