import Benzene.Mesh.Ingest

namespace Benzene.Mesh

open Benzene.Data

-- What every issue the catalog holds has: a whole count and a list of exemplars.
structure StoredIssue (issue : Fields) : Prop where
  count : ∃ n, Entries.get? ("count" : Str) issue = some (.int n)
  exemplars : ∃ held, Entries.get? ("exemplarTraceIds" : Str) issue = some (.arr held)

section Members

-- The error detail touches its own member alone.
theorem get?_mergeErrorDetail {key : Str} (h : key ≠ ("errors" : Str)) (merged : Fields)
    (incoming : Json) :
    Entries.get? key (mergeErrorDetail merged incoming) = Entries.get? key merged := by
  simp only [mergeErrorDetail]
  split
  · rw [Entries.get?_erase, if_neg h.symm]
  · rw [Entries.get?_set, if_neg h.symm]

theorem get?_overwrite_of_mem {key : Str} (h : key ∈ aggregatedIssueFields)
    (existing issue : Fields) :
    Entries.get? key (overwrite existing issue) = Entries.get? key existing := by
  refine Entries.get?_update_of_notMem key existing _ fun hmem => ?_
  obtain ⟨entry, hentry, rfl⟩ := List.mem_map.mp hmem
  simpa [h] using (List.mem_filter.mp hentry).2

theorem get?_overwrite {key : Str} (h : key ∉ aggregatedIssueFields) (existing : Fields)
    {issue : Fields} (hnodup : (Entries.keys issue).Nodup) :
    Entries.get? key (overwrite existing issue) =
      (Entries.get? key issue).or (Entries.get? key existing) := by
  unfold overwrite
  rw [Entries.get?_update key existing (hnodup.sublist (List.filter_sublist.map _)),
    Entries.get?_filter_of_pos (fun k => k ∉ aggregatedIssueFields) (by simpa using h)]

-- The counts, the exemplars and the error detail of a merge, written over `base`.
def aggregate (base issue : Fields) (count : Int) (exemplars : List Json) : Fields :=
  mergeErrorDetail
    (Entries.set ("exemplarTraceIds" : Str) (.arr (newest exemplars))
      (Entries.set ("count" : Str) (.int count) base))
    (Json.getField issue "errors")

theorem get?_aggregate {key : Str} (base issue : Fields) (count : Int) (exemplars : List Json)
    (herrors : key ≠ ("errors" : Str)) :
    Entries.get? key (aggregate base issue count exemplars) =
      if key = ("exemplarTraceIds" : Str) then some (.arr (newest exemplars))
      else if key = ("count" : Str) then some (.int count) else Entries.get? key base := by
  unfold aggregate
  rw [get?_mergeErrorDetail herrors, Entries.get?_set, Entries.get?_set]
  simp only [eq_comm]

theorem storedIssue_aggregate (base issue : Fields) (count : Int) (exemplars : List Json) :
    StoredIssue (aggregate base issue count exemplars) where
  count := ⟨count, by rw [get?_aggregate] <;> simp⟩
  exemplars := ⟨newest exemplars, by rw [get?_aggregate] <;> simp⟩

-- A key no merge computes.
theorem get?_aggregate_of_notMem {key : Str} (h : key ∉ aggregatedIssueFields) (base issue : Fields)
    (count : Int) (exemplars : List Json) :
    Entries.get? key (aggregate base issue count exemplars) = Entries.get? key base := by
  simp only [aggregatedIssueFields, List.map_cons, List.map_nil, List.mem_cons, List.not_mem_nil,
    or_false, not_or] at h
  obtain ⟨hcount, herrors, hexemplars, -, -⟩ := h
  rw [get?_aggregate _ _ _ _ herrors, if_neg hexemplars, if_neg hcount]

theorem get?_widen (pick : Json → Json → Except PyError Json) {key other : Str} (h : other ≠ key)
    (issue existing : Fields) :
    Entries.get? other (widen pick key issue existing).2 = Entries.get? other existing := by
  unfold widen
  split
  · rfl
  · split
    · rw [Entries.get?_set, if_neg h.symm]
    · rfl

end Members

section Merging

-- The exemplars an issue holds after a merge, before the cut.
def combinedExemplars (held exemplars : List Json) : List Json :=
  held ++ exemplars.filter fun traceId => !held.any (Json.same traceId)

def widenWindow (issue : Fields) : Py PyError Fields Unit := do
  widen Json.min "firstSeen" issue
  widen Json.max "lastSeen" issue

-- The window is the last thing a merge writes.
theorem get?_widenWindow {key : Str} (hfirst : key ≠ ("firstSeen" : Str))
    (hlast : key ≠ ("lastSeen" : Str)) (issue existing : Fields) :
    Entries.get? key (widenWindow issue existing).2 = Entries.get? key existing := by
  unfold widenWindow
  have hbefore := get?_widen Json.min hfirst issue existing
  rw [Py.bind_apply]
  cases h : widen Json.min "firstSeen" issue existing with
  | mk outcome widened =>
      rw [h] at hbefore
      cases outcome with
      | error error => exact hbefore
      | ok _ => exact (get?_widen Json.max hlast issue widened).trans hbefore

theorem storedIssue_widenWindow {existing : Fields} (h : StoredIssue existing) (issue : Fields) :
    StoredIssue (widenWindow issue existing).2 := by
  obtain ⟨⟨n, hn⟩, ⟨held, hheld⟩⟩ := h
  exact ⟨⟨n, by rw [get?_widenWindow (by simp) (by simp), hn]⟩,
    ⟨held, by rw [get?_widenWindow (by simp) (by simp), hheld]⟩⟩

variable [UnicodeData]

theorem newIssue_eq (issue : Fields) (exemplars : List Json) :
    newIssue issue exemplars =
      (safeInt (countOf issue)).map fun count =>
        mergeErrorDetail (Entries.erase ("errors" : Str)
          (Entries.set ("exemplarTraceIds" : Str) (.arr (newest exemplars))
            (Entries.set ("count" : Str) (.int count) issue))) (Json.getField issue "errors") := by
  unfold newIssue
  cases safeInt (countOf issue) <;> rfl

-- A merge into a stored issue: it can only fail on the incoming count, after the
-- other fields were overwritten, or on a timestamp, after everything else.
theorem mergeExisting_eq {issue existing : Fields} {exemplars held : List Json} {n : Int}
    (hcount : Entries.get? ("count" : Str) existing = some (.int n))
    (hheld : Entries.get? ("exemplarTraceIds" : Str) existing = some (.arr held)) :
    mergeExisting issue exemplars existing =
      match safeInt (countOf issue) with
      | .error error => (.error error, overwrite existing issue)
      | .ok delta => widenWindow issue (aggregate (overwrite existing issue) issue (n + delta)
          (combinedExemplars held exemplars)) := by
  have hread : safeInt (countOf (overwrite existing issue)) = .ok n := by
    unfold countOf
    rw [get?_overwrite_of_mem (by simp [aggregatedIssueFields]), hcount]
    rfl
  have hheld' : heldExemplars (overwrite existing issue) = .ok held := by
    unfold heldExemplars
    rw [get?_overwrite_of_mem (by simp [aggregatedIssueFields]), hheld]
  unfold mergeExisting
  cases hdelta : safeInt (countOf issue) with
  | error error =>
      simp only [Py.bind_apply, Py.modify_apply, Py.get_apply, Py.lift_apply, hread]
  | ok delta =>
      simp only [Py.bind_apply, Py.modify_apply, Py.get_apply, Py.lift_apply, hread, hheld',
        widenWindow, aggregate, combinedExemplars]

theorem storedIssue_newIssue {issue merged : Fields} {exemplars : List Json}
    (h : newIssue issue exemplars = .ok merged) : StoredIssue merged := by
  rw [newIssue_eq] at h
  cases hcount : safeInt (countOf issue) with
  | error error =>
      rw [hcount] at h
      cases h
  | ok count =>
      rw [hcount] at h
      cases h
      exact ⟨⟨count, by simp [get?_mergeErrorDetail, Entries.get?_erase, Entries.get?_set]⟩,
        ⟨newest exemplars, by simp [get?_mergeErrorDetail, Entries.get?_erase]⟩⟩

theorem storedIssue_mergeExisting {issue existing : Fields} (h : StoredIssue existing)
    (exemplars : List Json) : StoredIssue (mergeExisting issue exemplars existing).2 := by
  obtain ⟨⟨n, hn⟩, ⟨held, hheld⟩⟩ := h
  rw [mergeExisting_eq hn hheld]
  cases safeInt (countOf issue) with
  | error error =>
      exact ⟨⟨n, by rw [get?_overwrite_of_mem (by simp [aggregatedIssueFields]), hn]⟩,
        ⟨held, by rw [get?_overwrite_of_mem (by simp [aggregatedIssueFields]), hheld]⟩⟩
  | ok delta => exact storedIssue_widenWindow (storedIssue_aggregate _ _ _ _) issue

end Merging

section Issues

def StoredIssues (issues : Dict Str Fields) : Prop :=
  ∀ fingerprint issue, issues.get? fingerprint = some issue → StoredIssue issue

theorem storedIssues_empty : StoredIssues Dict.empty := fun _ _ h => by simp at h

theorem storedIssues_set {issues : Dict Str Fields} (h : StoredIssues issues) (fingerprint : Str)
    {issue : Fields} (hissue : StoredIssue issue) : StoredIssues (issues.set fingerprint issue) := by
  intro other held hget
  rw [Dict.get?_set] at hget
  split at hget
  · cases hget
    exact hissue
  · exact h other held hget

variable [UnicodeData]

theorem mergeIssue_malformed {fingerprint : Str} {issue : Fields} {error : PyError}
    (h : incomingExemplars issue = .error error) (issues : Dict Str Fields) :
    mergeIssue fingerprint issue issues = (.error error, issues) := by
  simp only [mergeIssue, Py.bind_apply, Py.lift_apply, h]

theorem mergeIssue_none {fingerprint : Str} {issue : Fields} {exemplars : List Json}
    {issues : Dict Str Fields} (h : incomingExemplars issue = .ok exemplars)
    (hnone : issues.get? fingerprint = none) :
    mergeIssue fingerprint issue issues =
      match newIssue issue exemplars with
      | .ok merged => (.ok (), issues.set fingerprint merged)
      | .error error => (.error error, issues) := by
  simp only [mergeIssue, Py.bind_apply, Py.lift_apply, Py.get_apply, h, hnone]
  cases newIssue issue exemplars <;> rfl

theorem mergeIssue_some {fingerprint : Str} {issue existing : Fields} {exemplars : List Json}
    {issues : Dict Str Fields} (h : incomingExemplars issue = .ok exemplars)
    (hsome : issues.get? fingerprint = some existing) :
    mergeIssue fingerprint issue issues =
      ((mergeExisting issue exemplars existing).1,
        issues.set fingerprint (mergeExisting issue exemplars existing).2) := by
  simp only [mergeIssue, Py.bind_apply, Py.lift_apply, Py.get_apply, h, hsome, Py.modify_apply]

theorem mergeIssue_storedIssues (fingerprint : Str) (issue : Fields) :
    Py.Preserves StoredIssues (mergeIssue fingerprint issue) := by
  intro issues hissues
  cases hex : incomingExemplars issue with
  | error error =>
      rw [mergeIssue_malformed hex]
      exact hissues
  | ok exemplars =>
      cases hget : issues.get? fingerprint with
      | none =>
          rw [mergeIssue_none hex hget]
          cases hnew : newIssue issue exemplars with
          | error error => exact hissues
          | ok merged => exact storedIssues_set hissues fingerprint (storedIssue_newIssue hnew)
      | some existing =>
          rw [mergeIssue_some hex hget]
          exact storedIssues_set hissues fingerprint
            (storedIssue_mergeExisting (hissues _ _ hget) exemplars)

theorem ingestIssue_storedIssues (raw : Json) : Py.Preserves StoredIssues (ingestIssue raw) := by
  refine .bind (.lift _) fun fingerprint => ?_
  split
  · exact .bind (mergeIssue_storedIssues _ _) fun _ => .pure _
  · exact .pure _

theorem fileDrift_storedIssues (name topic traceId : Str) :
    Py.Preserves StoredIssues (fileDrift name topic traceId) :=
  .bind (.lift _) fun _ => mergeIssue_storedIssues _ _

theorem flagDrift_storedIssues (c : Catalog) (event : Event) :
    Py.Preserves StoredIssues (c.flagDrift event) := by
  rw [flagDrift_eq]
  refine .bind ?_ fun _ => .bind (.lift _) fun caller => ?_
  · rw [flagConsumer_eq]
    split
    · exact fileDrift_storedIssues _ _ _
    · exact .pure _
  · split
    · rw [flagProvider_eq]
      split
      · exact fileDrift_storedIssues _ _ _
      · exact .pure _
    · exact .pure _

end Issues

section Runs

def StoresIssues (c : Catalog) : Prop := StoredIssues c.issues

theorem onIssues_storesIssues {α : Type} {x : Merge α} (h : Py.Preserves StoredIssues x) :
    Py.Preserves StoresIssues (onIssues x) :=
  fun c hc => h c.issues hc

variable [UnicodeData]

theorem ingestEvent_storesIssues (raw : Json) : Py.Preserves StoresIssues (ingestEvent raw) := by
  intro c hc
  cases h : decodeEvent raw with
  | error error =>
      rw [ingestEvent_error h]
      exact hc
  | ok event =>
      rw [ingestEvent_ok h]
      exact flagDrift_storedIssues (c.observe event) event c.issues hc

-- Every ingest keeps the stored issues well formed, also one that raises.
theorem ingest_storesIssues (post : Post) {c : Catalog} (h : StoresIssues c) :
    StoresIssues (c.ingest post) := by
  obtain ⟨feed, body⟩ := post
  have hpreserves : Py.Preserves StoresIssues (feed.ingest body) := by
    cases feed with
    | register => exact .bind (.lift _) fun _ => .bind (.modify fun _ hc => hc) fun _ => .pure _
    | heartbeat =>
        exact .bind (.lift _) fun _ => .bind (.modify fun _ hc => hc) fun _ =>
          .bind (.lift _) fun _ => .bind (.lift _) fun _ =>
            .bind (.modify fun _ hc => hc) fun _ => .pure _
    | traces =>
        exact .bind (.lift _) fun _ =>
          .bind (.mapEach fun raw _ => ingestEvent_storesIssues raw) fun _ => .pure _
    | issues =>
        exact .bind (.lift _) fun _ => .bind (.modify fun _ hc => hc) fun _ => .bind (.lift _) fun _ =>
          .bind (onIssues_storesIssues (.mapEach fun raw _ => ingestIssue_storedIssues raw))
            fun _ => .pure _
  exact hpreserves c h

theorem run_storesIssues (posts : List Post) {c : Catalog} (h : StoresIssues c) :
    StoresIssues (c.run posts) := by
  induction posts generalizing c with
  | nil => exact h
  | cons post posts ih => exact ih (ingest_storesIssues post h)

end Runs

end Benzene.Mesh
