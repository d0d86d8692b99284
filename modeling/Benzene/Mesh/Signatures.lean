import Benzene.Mesh.Drift
import Benzene.Mesh.IssueCounts
import Mathlib.Data.List.TakeWhile

namespace Benzene.Mesh

open Benzene.Data Benzene.Results

section Signatures

-- What tells one failure from another.
structure Signature where
  service : Str
  topic : Str
  version : Str
  classification : Classification
  discriminator : Str
deriving DecidableEq

def bar : CodePoint := CodePoint.ofChar '|'

namespace Signature

def fields (a : Signature) : List Str :=
  [a.service, a.topic, a.version, a.classification.text, a.discriminator]

def text (a : Signature) : Str :=
  fingerprintText a.service a.topic a.version a.classification.text a.discriminator

def fingerprint (a : Signature) : Except PyError Str :=
  issueFingerprint a.service a.topic a.version a.classification.text a.discriminator

-- The fields, each cut at its bars.
def pieces (a : Signature) : List Str := a.fields.flatMap fun field => field.splitOn bar

theorem splitOn_join (field : Str) (rest : List Str) :
    (Str.join "|" (field :: rest)).splitOn bar = (field :: rest).flatMap fun text => text.splitOn bar := by
  induction rest generalizing field with
  | nil => simp [Str.join]
  | cons next rest ih =>
      have hsep : Str.join "|" (field :: next :: rest) = field ++ bar :: Str.join "|" (next :: rest) := by
        rw [Str.join, List.append_assoc]
        · rfl
        · exact List.cons_ne_nil _ _
      rw [hsep, List.splitOn_append_cons_self, ih]
      rfl

theorem text_splitOn (a : Signature) : a.text.splitOn bar = a.pieces := splitOn_join _ _

-- Two signatures are hashed from the same text exactly if they have the same pieces.
theorem text_eq_iff (a b : Signature) : a.text = b.text ↔ a.pieces = b.pieces := by
  constructor
  · intro h
    rw [← text_splitOn, ← text_splitOn, h]
  · intro h
    rw [← text_splitOn, ← text_splitOn] at h
    have hjoin := congrArg (List.intercalate [bar]) h
    rwa [List.intercalate_splitOn, List.intercalate_splitOn] at hjoin

theorem fingerprint_congr {a b : Signature} (h : a.text = b.text) : a.fingerprint = b.fingerprint := by
  unfold fingerprint issueFingerprint
  rw [show fingerprintText a.service a.topic a.version a.classification.text a.discriminator = _ from h]
  rfl

end Signature

def Occurrence.signature (occurrence : Occurrence) (service : Str) : Signature where
  service := service
  topic := occurrence.topic
  version := occurrence.version
  classification := classify occurrence.status occurrence.exceptionType
  discriminator := textOr occurrence.exceptionType occurrence.status

def driftSignature (edge : Edge) : Signature where
  service := edge.1
  topic := edge.2
  version := []
  classification := .contractDrift
  discriminator := "undeclared-edge"

theorem occurrence_fingerprint (occurrence : Occurrence) (service : Str) :
    (occurrence.signature service).fingerprint =
      IssueAggregator.occurrenceFingerprint service occurrence := rfl

theorem drift_fingerprint (edge : Edge) : (driftSignature edge).fingerprint = driftKey edge := rfl

end Signatures

section Filing

-- How many of the signatures have this fingerprint.
def occurrencesOf (signatures : List Signature) (fingerprint : Str) : Nat :=
  signatures.countP fun a => a.fingerprint = .ok fingerprint

@[simp] theorem occurrencesOf_append (a b : List Signature) (fingerprint : Str) :
    occurrencesOf (a ++ b) fingerprint = occurrencesOf a fingerprint + occurrencesOf b fingerprint :=
  List.countP_append

-- The edges the drift of one event concerns, on the serving and on the sending side.
def Catalog.driftedBy (c : Catalog) (event : Event) : List Edge :=
  let callee := c.serviceOrNew event.service
  (if consumerDrift callee event.topic then [(callee.name, event.topic)] else []) ++
    match callerName c.spanOwner event.parentSpanId with
    | .ok caller =>
        let record := c.serviceOrNew caller
        if caller ≠ [] ∧ caller ≠ event.service ∧ providerDrift record event.topic
          then [(record.name, event.topic)] else []
    | .error _ => []

-- The drift that is filed. An edge that cannot be hashed raises.
def Catalog.filedBy (c : Catalog) (event : Event) : List Edge :=
  (c.driftedBy event).takeWhile fun edge => (driftKey edge).isOk

-- The drift a list of raw events files, up to the first one that raises.
def filedIn [UnicodeData] (c : Catalog) : List Json → List Edge
  | [] => []
  | raw :: rest =>
      match decodeEvent raw with
      | .error _ => []
      | .ok event => (c.observe event).filedBy event ++
          match ingestEvent raw c with
          | (.ok _, c') => filedIn c' rest
          | (.error _, _) => []

theorem filedBy_fingerprint {c : Catalog} {event : Event} {edge : Edge} (h : edge ∈ c.filedBy event) :
    ∃ fingerprint, (driftSignature edge).fingerprint = .ok fingerprint := by
  have hok := List.mem_takeWhile_imp h
  rw [drift_fingerprint]
  cases hkey : driftKey edge with
  | ok fingerprint => exact ⟨fingerprint, rfl⟩
  | error error =>
      rw [hkey] at hok
      cases hok

-- Filing the edges in order.
def fileAll [UnicodeData] (traceId : Str) : List Edge → Merge Unit
  | [] => pure ()
  | edge :: rest => fileDrift edge.1 edge.2 traceId >>= fun _ => fileAll traceId rest

-- The issues keep their shape, and each filed edge counts once.
structure Counts (filed : List Edge) (issues issues' : Dict Str Fields) : Prop where
  reported : Reported issues'
  count : ∀ fingerprint, heldCount issues' fingerprint =
    heldCount issues fingerprint + occurrencesOf (filed.map driftSignature) fingerprint

theorem counts_nil {issues : Dict Str Fields} (h : Reported issues) : Counts [] issues issues :=
  ⟨h, fun _ => by simp [occurrencesOf]⟩

theorem Counts.append {filed filed' : List Edge} {issues issues' issues'' : Dict Str Fields}
    (h : Counts filed issues issues') (h' : Counts filed' issues' issues'') :
    Counts (filed ++ filed') issues issues'' := by
  refine ⟨h'.reported, fun fingerprint => ?_⟩
  rw [h'.count, h.count, List.map_append, occurrencesOf_append]
  push_cast
  omega

variable [UnicodeData]

theorem filedIn_fingerprint {c : Catalog} {raws : List Json} {edge : Edge} (h : edge ∈ filedIn c raws) :
    ∃ fingerprint, (driftSignature edge).fingerprint = .ok fingerprint := by
  induction raws generalizing c with
  | nil => cases h
  | cons raw rest ih =>
      rw [filedIn] at h
      split at h
      · cases h
      · rcases List.mem_append.mp h with hfiled | hrest
        · exact filedBy_fingerprint hfiled
        · split at hrest
          · exact ih hrest
          · cases hrest

theorem driftIssue_counted (edge : Edge) (traceId fingerprint : Str) :
    Counted (driftIssue edge.1 edge.2 traceId fingerprint) 1 := by
  have hspec := driftIssue_spec edge traceId fingerprint
  exact ⟨hspec.exemplars, safeInt_of_driftIssue hspec, ⟨none, hspec.firstSeen⟩, ⟨none, hspec.lastSeen⟩⟩

theorem fileDrift_error {edge : Edge} {error : PyError} (h : driftKey edge = .error error)
    (traceId : Str) (issues : Dict Str Fields) :
    fileDrift edge.1 edge.2 traceId issues = (.error error, issues) := by
  simp only [fileDrift, Py.bind_apply, Py.lift_apply, show driftFingerprint edge.1 edge.2 = _ from h]

theorem fileDrift_counts {edge : Edge} {fingerprint : Str} (hkey : driftKey edge = .ok fingerprint)
    {issues : Dict Str Fields} (h : Reported issues) (traceId : Str) :
    ∃ issues', fileDrift edge.1 edge.2 traceId issues = (.ok (), issues') ∧
      Counts [edge] issues issues' := by
  obtain ⟨issues', hmerge, hreported, hcount⟩ :=
    mergeIssue_reported h (driftIssue_counted edge traceId fingerprint) fingerprint
  refine ⟨issues', ?_, hreported, fun other => ?_⟩
  · simp only [fileDrift, Py.bind_apply, Py.lift_apply, show driftFingerprint edge.1 edge.2 = _ from hkey,
      hmerge]
  · rw [hcount]
    by_cases hother : fingerprint = other <;> simp [occurrencesOf, drift_fingerprint, hkey, hother]

theorem fileAll_counts (traceId : Str) (edges : List Edge) {issues : Dict Str Fields}
    (h : Reported issues) :
    Counts (edges.takeWhile fun edge => (driftKey edge).isOk) issues (fileAll traceId edges issues).2 := by
  induction edges generalizing issues with
  | nil => exact counts_nil h
  | cons edge rest ih =>
      rw [List.takeWhile_cons, fileAll, Py.bind_apply]
      cases hkey : driftKey edge with
      | error error =>
          rw [fileDrift_error hkey]
          exact counts_nil h
      | ok fingerprint =>
          obtain ⟨issues', hfile, hcounts⟩ := fileDrift_counts hkey h traceId
          rw [hfile]
          exact hcounts.append (ih hcounts.reported)

theorem fileAll_append (traceId : Str) (a b : List Edge) (issues : Dict Str Fields) :
    fileAll traceId (a ++ b) issues = (fileAll traceId a >>= fun _ => fileAll traceId b) issues := by
  induction a generalizing issues with
  | nil => rfl
  | cons edge rest ih =>
      simp only [List.cons_append, fileAll, Py.bind_apply]
      cases hfile : fileDrift edge.1 edge.2 traceId issues with
      | mk outcome issues' =>
          cases outcome with
          | error error => rfl
          | ok _ => simpa only [Py.bind_apply] using ih issues'

-- A flag files its edge, if it drifts.
theorem fileAll_flag (p : Prop) [Decidable p] (edge : Edge) (traceId : Str) :
    fileAll traceId (if p then [edge] else []) =
      if p then fileDrift edge.1 edge.2 traceId else pure () := by
  by_cases hp : p
  · rw [if_pos hp, if_pos hp]
    funext issues
    simp only [fileAll, Py.bind_apply]
    cases hfile : fileDrift edge.1 edge.2 traceId issues with
    | mk outcome issues' => cases outcome <;> rfl
  · rw [if_neg hp, if_neg hp]
    rfl

-- The issues after an event: its edges are filed in order, whether it raises or not.
theorem flagDrift_issues (c : Catalog) (event : Event) (issues : Dict Str Fields) :
    (c.flagDrift event issues).2 = (fileAll event.traceId (c.driftedBy event) issues).2 := by
  rw [flagDrift_eq, Catalog.driftedBy, fileAll_append, Py.bind_apply, Py.bind_apply]
  dsimp only
  rw [fileAll_flag, flagConsumer_eq]
  generalize (if consumerDrift (c.serviceOrNew event.service) event.topic = true then _ else _ : Merge Unit)
    issues = consumed
  obtain ⟨outcome, issues'⟩ := consumed
  cases outcome with
  | error error => rfl
  | ok _ =>
      simp only [Py.bind_apply, Py.lift_apply]
      cases callerName c.spanOwner event.parentSpanId with
      | error error => rfl
      | ok caller =>
          dsimp only
          rw [fileAll_flag, flagProvider_eq]
          by_cases hforeign : caller ≠ [] ∧ caller ≠ event.service
          · simp only [hforeign, true_and, and_true, ne_eq, not_false_eq_true, if_true]
          · rw [if_neg hforeign, if_neg fun hp => hforeign ⟨hp.1, hp.2.1⟩]

theorem ingestEvent_counts {raw : Json} {event : Event} (hevent : decodeEvent raw = .ok event)
    {c : Catalog} (h : Reported c.issues) :
    Counts ((c.observe event).filedBy event) c.issues (ingestEvent raw c).2.issues := by
  rw [ingestEvent_ok hevent]
  dsimp only
  rw [flagDrift_issues]
  exact fileAll_counts event.traceId ((c.observe event).driftedBy event) h

theorem ingestEvents_counts (raws : List Json) {c : Catalog} (h : Reported c.issues) :
    Counts (filedIn c raws) c.issues (Py.mapEach ingestEvent raws c).2.issues := by
  induction raws generalizing c with
  | nil => exact counts_nil h
  | cons raw rest ih =>
      rw [filedIn, Py.mapEach_cons]
      cases hevent : decodeEvent raw with
      | error error =>
          rw [ingestEvent_error hevent]
          exact counts_nil h
      | ok event =>
          have hcounts := ingestEvent_counts hevent h
          cases hrun : ingestEvent raw c with
          | mk outcome c' =>
              rw [hrun] at hcounts
              cases outcome with
              | error error => simpa using hcounts
              | ok _ =>
                  have hrest := hcounts.append (ih hcounts.reported)
                  dsimp only at hrest ⊢
                  cases hrests : Py.mapEach ingestEvent rest c' with
                  | mk outcomes c'' =>
                      rw [hrests] at hrest
                      cases outcomes <;> exact hrest

-- The drift a post files: only traces do.
def filedByPost (c : Catalog) (post : Post) : List Edge :=
  match post.feed with
  | .traces =>
      match Json.iter (Json.orElse (Json.getField post.body "events") (.arr [])) with
      | .ok events => filedIn c events
      | .error _ => []
  | _ => []

theorem filedByPost_fingerprint {c : Catalog} {post : Post} {edge : Edge}
    (h : edge ∈ filedByPost c post) :
    ∃ fingerprint, (driftSignature edge).fingerprint = .ok fingerprint := by
  unfold filedByPost at h
  split at h
  · split at h
    · exact filedIn_fingerprint h
    · cases h
  · cases h

-- A post to another feed than the one for issues.
theorem ingest_counts {c : Catalog} (h : Reported c.issues) {post : Post} (hfeed : post.feed ≠ .issues) :
    Counts (filedByPost c post) c.issues (c.ingest post).issues := by
  obtain ⟨feed, body⟩ := post
  cases feed with
  | register =>
      simp only [Catalog.ingest, Feed.ingest, ingestRegister_apply, filedByPost]
      split <;> exact counts_nil h
  | heartbeat =>
      have hkept : (c.ingest ⟨.heartbeat, body⟩).issues = c.issues := by
        have hpreserves : Py.Preserves (fun c' : Catalog => c'.issues = c.issues) (ingestHeartbeat body) :=
          .bind (.lift _) fun _ => .bind (.modify fun _ hc => hc) fun _ =>
            .bind (.lift _) fun _ => .bind (.lift _) fun _ =>
              .bind (.modify fun _ hc => hc) fun _ => .pure _
        exact hpreserves c rfl
      rw [hkept]
      exact counts_nil h
  | traces =>
      simp only [Catalog.ingest, Feed.ingest, ingestTraces, filedByPost, Py.bind_apply, Py.lift_apply]
      cases hiter : Json.iter (Json.orElse (Json.getField body "events") (.arr [])) with
      | error error => exact counts_nil h
      | ok events =>
          have hcounts := ingestEvents_counts events h
          simp only [raises, Except.mapError]
          cases hrun : Py.mapEach ingestEvent events c with
          | mk outcome c' =>
              rw [hrun] at hcounts
              cases outcome <;> exact hcounts
  | issues => exact absurd rfl hfeed

end Filing

end Benzene.Mesh
