import Benzene.Mesh.Signatures

namespace Benzene.Mesh

open Benzene.Data Benzene.Results

section Fleet

-- The aggregators of some services, the batches they flushed that are still to be
-- delivered, and the collector; then what failed: the signature of every record call
-- that returned and of every drift the collector filed, in order.
structure Fleet (n : Nat) where
  aggregators : Fin n → IssueAggregator
  inFlight : List IssueBatch
  collector : Collector
  recorded : List Signature
  filed : List Signature

-- The batches are what is posted to the issues feed; the other feeds take any body.
inductive Move (n : Nat)
  | record (i : Fin n) (occurrence : Occurrence)
  | flush (i : Fin n)
  | deliver (k : Nat)
  | post (posted : Post) (feed : posted.feed ≠ .issues)

namespace Fleet

variable {n : Nat}

def start (services : Fin n → Str) : Fleet n :=
  ⟨fun i => IssueAggregator.new (services i), [], Collector.empty, [], []⟩

def failures (s : Fleet n) : List Signature := s.recorded ++ s.filed

-- Nothing is left to flush or to deliver.
def Settled (s : Fleet n) : Prop :=
  (∀ i, (s.aggregators i).issues.entries = []) ∧ s.inFlight.length = 0

instance (s : Fleet n) : Decidable s.Settled := by
  unfold Settled
  infer_instance

def held (s : Fleet n) (fingerprint : Str) : Int :=
  heldCount s.collector.catalog.issues fingerprint

-- The collector takes no batch of a service without a name.
def deliverable (service : Str) (count : Int) : Int := if service = [] then 0 else count

-- The occurrences of a fingerprint that the collector holds or is still to be given.
def total (s : Fleet n) (fingerprint : Str) : Int :=
  ∑ i, deliverable (s.aggregators i).service ((s.aggregators i).pending fingerprint) +
    (s.inFlight.map fun batch => deliverable batch.service (batch.count fingerprint)).sum +
    s.held fingerprint

-- Every failure has an issue to itself: no other failure shares its fingerprint, its
-- occurrences are all accounted for, and once everything is delivered they are the
-- count of the issue the collector holds.
def Separate (s : Fleet n) : Prop :=
  ∀ a ∈ s.failures, ∃ fingerprint, a.fingerprint = .ok fingerprint ∧
    (∀ b ∈ s.failures, b.fingerprint = .ok fingerprint → b = a) ∧
    s.total fingerprint = s.failures.count a ∧
    (s.Settled → s.held fingerprint = s.failures.count a)

-- The truncated digest tells the texts that were hashed apart.
def InjectiveDigest (s : Fleet n) : Prop :=
  ∀ a ∈ s.failures, ∀ b ∈ s.failures, a.fingerprint = b.fingerprint → a.text = b.text

def named (signatures : List Signature) : List Signature :=
  signatures.filter fun a => a.service ≠ []

-- What every state of a run keeps: the occurrences that can reach the collector are
-- in one place.
structure Accounts (s : Fleet n) : Prop where
  keyed : ∀ i, Keyed (s.aggregators i).service (s.aggregators i)
  fingerprint : ∀ batch ∈ s.inFlight, ∀ issue ∈ batch.issues, issue.fingerprint ≠ []
  reported : Reported s.collector.catalog.issues
  hashed : ∀ a ∈ s.failures, ∃ fingerprint, a.fingerprint = .ok fingerprint
  conserved : ∀ fingerprint, s.total fingerprint =
    occurrencesOf (named s.recorded) fingerprint + occurrencesOf s.filed fingerprint

theorem accounts_start (services : Fin n → Str) : (start services).Accounts where
  keyed i := keyed_new (services i)
  fingerprint _ h := by simp [start] at h
  reported := ⟨storedIssues_empty, fun _ _ h => by simp [start, Collector.empty, Catalog.empty] at h⟩
  hashed a h := by simp [start, failures] at h
  conserved _ := by
    have hnone (service : Str) : deliverable service 0 = 0 := by simp [deliverable]
    simp [start, total, held, pending_new, hnone, Collector.empty, Catalog.empty, heldCount, named,
      occurrencesOf]

variable [UnicodeData]

def step (s : Fleet n) : Move n → Fleet n
  | .record i occurrence =>
      match (s.aggregators i).record occurrence with
      | .ok (_, aggregator) => { s with
          aggregators := Function.update s.aggregators i aggregator
          recorded := s.recorded ++ [occurrence.signature (s.aggregators i).service] }
      | .error _ => s
  | .flush i => { s with
      aggregators := Function.update s.aggregators i (s.aggregators i).flush.2
      inFlight := s.inFlight ++ [(s.aggregators i).flush.1] }
  | .deliver k =>
      match s.inFlight[k]? with
      | some batch => { s with
          inFlight := s.inFlight.eraseIdx k
          collector := (s.collector.ingest (issuesPost batch)).2 }
      | none => s
  | .post posted _ => { s with
      collector := (s.collector.ingest posted).2
      filed := s.filed ++ (filedByPost s.collector.catalog posted).map driftSignature }

def run (s : Fleet n) (moves : List (Move n)) : Fleet n := moves.foldl step s

-- A batch without a service is refused before anything is merged.
theorem ingest_nameless (c : Catalog) {batch : IssueBatch} (h : batch.service = []) :
    (c.ingest (issuesPost batch)).issues = c.issues := by
  have hrequire : ∃ error, require batch.toPayload "service" = .error error := by
    simp [require, IssueBatch.toPayload, Json.getField, Json.field, Json.truthy, h]
  obtain ⟨error, herror⟩ := hrequire
  simp only [Catalog.ingest, Feed.ingest, issuesPost, ingestIssues, Py.bind_apply, Py.lift_apply, herror]

theorem accounts_record {s : Fleet n} (h : s.Accounts) (i : Fin n) (occurrence : Occurrence) :
    (s.step (.record i occurrence)).Accounts := by
  cases hrecord : (s.aggregators i).record occurrence with
  | error error =>
      simp only [step, hrecord]
      exact h
  | ok result =>
      obtain ⟨issue, aggregator⟩ := result
      simp only [step, hrecord]
      have hfingerprint := record_fingerprint (h.keyed i) hrecord
      obtain ⟨hkeyed, hpending⟩ := record_pending (h.keyed i) hrecord
      rw [← occurrence_fingerprint] at hfingerprint
      generalize hsignature : occurrence.signature (s.aggregators i).service = signature at *
      have hservice : signature.service = (s.aggregators i).service := by
        rw [← hsignature]
        rfl
      refine ⟨fun j => ?_, h.fingerprint, h.reported, fun a ha => ?_, fun fingerprint => ?_⟩
      · by_cases hj : j = i
        · subst hj
          simp only [Function.update_self]
          exact hkeyed.service.symm ▸ hkeyed
        · simpa [hj] using h.keyed j
      · rcases List.mem_append.mp ha with hrecorded | hfiled
        · rcases List.mem_append.mp hrecorded with hold | hnew
          · exact h.hashed a (List.mem_append_left _ hold)
          · rw [List.mem_singleton.mp hnew]
            exact ⟨issue.fingerprint, hfingerprint⟩
        · exact h.hashed a (List.mem_append_right _ hfiled)
      · have hsum := Flow.sum_update (fun held : IssueAggregator =>
          deliverable held.service (held.pending fingerprint)) s.aggregators i aggregator
        have htotal := h.conserved fingerprint
        have hcount : (occurrencesOf (named (s.recorded ++ [signature])) fingerprint : Int) =
            occurrencesOf (named s.recorded) fingerprint +
              deliverable (s.aggregators i).service
                (if issue.fingerprint = fingerprint then 1 else 0) := by
          rw [named, List.filter_append, occurrencesOf_append, Nat.cast_add]
          congr 1
          by_cases hname : (s.aggregators i).service = [] <;>
            by_cases heq : issue.fingerprint = fingerprint <;>
            simp [deliverable, occurrencesOf, hservice, hname, hfingerprint, heq]
        rw [hkeyed.service, hpending] at hsum
        simp only [total, held] at htotal ⊢
        rw [hcount]
        by_cases hname : (s.aggregators i).service = [] <;>
          simp only [deliverable, hname, if_true, if_false] at hsum htotal ⊢ <;> omega

theorem accounts_flush {s : Fleet n} (h : s.Accounts) (i : Fin n) : (s.step (.flush i)).Accounts := by
  have hkeyed := h.keyed i
  refine ⟨fun j => ?_, ?_, h.reported, h.hashed, fun fingerprint => ?_⟩
  · by_cases hj : j = i
    · subst hj
      simp only [step, Function.update_self]
      exact keyed_new (s.aggregators j).service
    · simpa [step, hj] using h.keyed j
  · intro batch hbatch
    rcases List.mem_append.mp hbatch with hold | hnew
    · exact h.fingerprint batch hold
    · rw [List.mem_singleton.mp hnew]
      exact flush_fingerprint hkeyed
  · have hsum := Flow.sum_update (fun held : IssueAggregator =>
      deliverable held.service (held.pending fingerprint)) s.aggregators i (s.aggregators i).flush.2
    have hcount := flush_count hkeyed fingerprint
    have hempty : (s.aggregators i).flush.2.pending fingerprint = 0 := rfl
    have hfrom : (s.aggregators i).flush.1.service = (s.aggregators i).service := rfl
    have hto : (s.aggregators i).flush.2.service = (s.aggregators i).service := rfl
    have hnone (service : Str) : deliverable service 0 = 0 := by simp [deliverable]
    have htotal := h.conserved fingerprint
    simp only [total, step, held, List.map_append, List.map_cons, List.map_nil, List.sum_append,
      List.sum_cons, List.sum_nil, hempty, hcount, hfrom, hto, hnone] at htotal hsum ⊢
    omega

theorem accounts_deliver {s : Fleet n} (h : s.Accounts) (k : Nat) : (s.step (.deliver k)).Accounts := by
  cases hbatch : s.inFlight[k]? with
  | none =>
      simp only [step, hbatch]
      exact h
  | some batch =>
      simp only [step, hbatch]
      have hmem := List.mem_of_getElem? hbatch
      -- The collector merges the batch, or refuses one without a service.
      have hmerged : Reported (s.collector.catalog.ingest (issuesPost batch)).issues ∧
          ∀ fingerprint, heldCount (s.collector.catalog.ingest (issuesPost batch)).issues fingerprint =
            s.held fingerprint + deliverable batch.service (batch.count fingerprint) := by
        by_cases hservice : batch.service = []
        · rw [ingest_nameless _ hservice]
          exact ⟨h.reported, fun fingerprint => by simp [held, deliverable, hservice]⟩
        · obtain ⟨hreported, hheld⟩ := ingest_issuesPost h.reported hservice (h.fingerprint batch hmem)
          refine ⟨hreported, fun fingerprint => ?_⟩
          rw [hheld, deliverable, if_neg hservice]
          rfl
      obtain ⟨hreported, hheld⟩ := hmerged
      refine ⟨h.keyed, fun other hother => h.fingerprint other (List.mem_of_mem_eraseIdx hother), ?_,
        h.hashed, fun fingerprint => ?_⟩
      · rw [Collector.ingest_catalog]
        exact hreported
      · have htotal := h.conserved fingerprint
        have hsum := Flow.sum_eraseIdx
          (fun other : IssueBatch => deliverable other.service (other.count fingerprint)) hbatch
        have hnow := hheld fingerprint
        simp only [total, held, Collector.ingest_catalog] at htotal hnow ⊢
        omega

theorem accounts_post {s : Fleet n} (h : s.Accounts) (posted : Post) (hfeed : posted.feed ≠ .issues) :
    (s.step (.post posted hfeed)).Accounts := by
  have hcounts := ingest_counts h.reported hfeed
  refine ⟨h.keyed, h.fingerprint, ?_, fun a ha => ?_, fun fingerprint => ?_⟩
  · simp only [step, Collector.ingest_catalog]
    exact hcounts.reported
  · simp only [failures, step, ← List.append_assoc] at ha
    rcases List.mem_append.mp ha with hold | hnew
    · exact h.hashed a hold
    · obtain ⟨edge, hedge, rfl⟩ := List.mem_map.mp hnew
      exact filedByPost_fingerprint hedge
  · have htotal := h.conserved fingerprint
    have hnow := hcounts.count fingerprint
    simp only [total, held, step, Collector.ingest_catalog, occurrencesOf_append] at htotal ⊢
    push_cast
    omega

theorem accounts_run {s : Fleet n} (h : s.Accounts) (moves : List (Move n)) : (s.run moves).Accounts := by
  induction moves generalizing s with
  | nil => exact h
  | cons move moves ih =>
      refine ih ?_
      cases move with
      | record i occurrence => exact accounts_record h i occurrence
      | flush i => exact accounts_flush h i
      | deliver k => exact accounts_deliver h k
      | post posted hfeed => exact accounts_post h posted hfeed

omit [UnicodeData] in
theorem total_of_settled {s : Fleet n} (h : s.Settled) (fingerprint : Str) :
    s.total fingerprint = s.held fingerprint := by
  obtain ⟨hflushed, hdelivered⟩ := h
  have hpending (i : Fin n) : (s.aggregators i).pending fingerprint = 0 := by
    simp [IssueAggregator.pending, Dict.get?, hflushed i]
  have hnone (service : Str) : deliverable service 0 = 0 := by simp [deliverable]
  rw [List.length_eq_zero_iff] at hdelivered
  simp [total, hpending, hnone, hdelivered]

omit [UnicodeData] in
theorem occurrencesOf_eq_count {signatures : List Signature} {a : Signature} {fingerprint : Str}
    (h : ∀ b ∈ signatures, b.fingerprint = .ok fingerprint ↔ b = a) :
    occurrencesOf signatures fingerprint = signatures.count a := by
  rw [occurrencesOf, List.count]
  apply List.countP_congr
  intro b hb
  simpa using h b hb

omit [UnicodeData] in
theorem named_eq_self {signatures : List Signature} (h : ∀ a ∈ signatures, a.service ≠ []) :
    named signatures = signatures :=
  List.filter_eq_self.mpr fun a ha => by simpa using h a ha

-- The two ways in which failures fail to be separate.
omit [UnicodeData] in
theorem separate_of_pieces {s : Fleet n} (h : s.Accounts) (hdigest : s.InjectiveDigest)
    (hservice : ∀ a ∈ s.recorded, a.service ≠ [])
    (hpieces : ∀ a ∈ s.failures, ∀ b ∈ s.failures, a.pieces = b.pieces → a = b) : s.Separate := by
  intro a ha
  obtain ⟨fingerprint, hfingerprint⟩ := h.hashed a ha
  have hunique : ∀ b ∈ s.failures, b.fingerprint = .ok fingerprint → b = a := by
    intro b hb hkey
    have htext := hdigest b hb a ha (hkey.trans hfingerprint.symm)
    exact hpieces b hb a ha ((Signature.text_eq_iff b a).mp htext)
  have hcount : occurrencesOf s.failures fingerprint = s.failures.count a :=
    occurrencesOf_eq_count fun b hb => ⟨hunique b hb, fun heq => heq ▸ hfingerprint⟩
  have htotal : s.total fingerprint = s.failures.count a := by
    rw [h.conserved, named_eq_self hservice, ← hcount, failures, occurrencesOf_append, Nat.cast_add]
  refine ⟨fingerprint, hfingerprint, hunique, htotal, fun hsettled => ?_⟩
  rw [← total_of_settled hsettled, htotal]

omit [UnicodeData] in
theorem pieces_of_separate {s : Fleet n} (hseparate : s.Separate) :
    ∀ a ∈ s.failures, ∀ b ∈ s.failures, a.pieces = b.pieces → a = b := by
  intro a ha b hb hpieces
  obtain ⟨fingerprint, hfingerprint, hunique, -⟩ := hseparate b hb
  have hsame := Signature.fingerprint_congr ((Signature.text_eq_iff a b).mpr hpieces)
  exact hunique a ha (hsame.trans hfingerprint)

omit [UnicodeData] in
theorem named_of_separate {s : Fleet n} (h : s.Accounts) (hseparate : s.Separate) :
    ∀ a ∈ s.recorded, a.service ≠ [] := by
  intro a ha hnameless
  obtain ⟨fingerprint, hfingerprint, hunique, htotal, -⟩ :=
    hseparate a (List.mem_append_left _ ha)
  -- What has this fingerprint is `a`, and of the recorded ones no `a` can be delivered.
  have hnone : occurrencesOf (named s.recorded) fingerprint = 0 := by
    rw [occurrencesOf, List.countP_eq_zero]
    intro b hb hkey
    obtain ⟨hrecorded, hname⟩ := List.mem_filter.mp hb
    rw [hunique b (List.mem_append_left _ hrecorded) (by simpa using hkey)] at hname
    exact absurd hnameless (by simpa using hname)
  have hfiled : occurrencesOf s.filed fingerprint = s.filed.count a :=
    occurrencesOf_eq_count fun b hb =>
      ⟨hunique b (List.mem_append_right _ hb), fun heq => heq ▸ hfingerprint⟩
  have hpositive : 0 < s.recorded.count a := List.count_pos_iff.mpr ha
  rw [h.conserved, hnone, hfiled, failures, List.count_append] at htotal
  push_cast at htotal
  omega

-- Different failures are different issues exactly if no two of them are cut into
-- the same pieces, as long as every recorded one has a service to report it.
theorem run_separate_iff (services : Fin n → Str) (moves : List (Move n))
    (hdigest : ((start services).run moves).InjectiveDigest) :
    ((start services).run moves).Separate ↔
      (∀ a ∈ ((start services).run moves).recorded, a.service ≠ []) ∧
        ∀ a ∈ ((start services).run moves).failures, ∀ b ∈ ((start services).run moves).failures,
          a.pieces = b.pieces → a = b := by
  have haccounts := accounts_run (accounts_start services) moves
  constructor
  · intro hseparate
    exact ⟨named_of_separate haccounts hseparate, pieces_of_separate hseparate⟩
  · rintro ⟨hservice, hpieces⟩
    exact separate_of_pieces haccounts hdigest hservice hpieces

end Fleet

end Fleet

section Example

open Benzene.Mesh.Fleet

-- A registration that declares an empty contract, and a call on an undeclared topic.
def billingBody : Fields :=
  [Json.field "service" (.str "billing"), Json.field "requests" (.arr [])]

def refundEvent : Json :=
  .obj [Json.field "service" (.str "billing"), Json.field "topic" (.str "refunds"),
    Json.field "traceId" (.str "t1"), Json.field "spanId" (.str "s1")]

def refundPost : Post := ⟨.traces, [Json.field "events" (.arr [refundEvent, refundEvent])]⟩

def firstService : Fin 2 := ⟨0, Nat.zero_lt_two⟩

def secondService : Fin 2 := ⟨1, Nat.one_lt_two⟩

-- Two services count the same occurrence, and the collector files drift of its own.
def refunds : List (Move 2) :=
  [.record firstService timeout, .post ⟨.register, billingBody⟩ (by decide), .record secondService timeout,
    .flush firstService, .post refundPost (by decide), .record firstService timeout, .flush secondService,
    .flush firstService, .deliver 1, .deliver 0, .deliver 0]

def refundServices : Fin 2 → Str := ![("billing" : Str), ("shipping" : Str)]

theorem refunds_separate :
    letI := UnicodeData.ascii
    let s := (start refundServices).run refunds
    s.recorded.length = 3 ∧ s.filed.length = 2 ∧ s.Settled ∧ s.Separate := by
  let _ := UnicodeData.ascii
  have hdigest : ((start refundServices).run refunds).InjectiveDigest := by
    unfold InjectiveDigest
    decide +kernel
  refine ⟨by decide +kernel, by decide +kernel, by decide +kernel, ?_⟩
  exact (@run_separate_iff 2 UnicodeData.ascii refundServices refunds hdigest).mpr
    ⟨by decide +kernel, by decide +kernel⟩

def barServices : Fin 2 → Str := ![("a" : Str), ("a|b" : Str)]

def barred : List (Move 2) :=
  [.record firstService { timeout with topic := "b|c" }, .record secondService { timeout with topic := "c" },
    .flush firstService, .flush secondService, .deliver 0, .deliver 0]

-- The failures of two services on two topics are one issue, counted twice.
theorem barred_merged :
    letI := UnicodeData.ascii
    let s := (start barServices).run barred
    s.InjectiveDigest ∧ s.Settled ∧
      s.recorded.map (fun a => (a.service, a.topic)) =
          [(("a" : Str), ("b|c" : Str)), ("a|b", "c")] ∧
      s.collector.catalog.issues.values.map countIn = [2] ∧ ¬s.Separate := by
  let _ := UnicodeData.ascii
  have hdigest : ((start barServices).run barred).InjectiveDigest := by
    unfold InjectiveDigest
    decide +kernel
  refine ⟨hdigest, by decide +kernel, by decide +kernel, by decide +kernel, fun hseparate => ?_⟩
  have hdistinct : ¬∀ a ∈ ((start barServices).run barred).failures,
      ∀ b ∈ ((start barServices).run barred).failures, a.pieces = b.pieces → a = b := by
    decide +kernel
  exact hdistinct (pieces_of_separate hseparate)

end Example

end Benzene.Mesh
