import Benzene.Mesh.Drift

namespace Benzene.Mesh

open Benzene.Data

section Traces

-- An entry of a trace batch that can be read: an object whose duration is no
-- integer past the float range.
def ReadableEntry (raw : Json) : Prop :=
  ∃ fields, raw = .obj fields ∧
    ∀ n, Json.getField fields "durationMs" = .int n → n.natAbs < PyFloat.overflowBound

theorem durationMs_ok_iff {value : Json} :
    (∃ duration, durationMs value = .ok duration) ↔
      ∀ n, value = .int n → n.natAbs < PyFloat.overflowBound := by
  cases value with
  | int n =>
      constructor
      · rintro ⟨duration, hduration⟩ m hm
        cases hm
        by_contra hlarge
        have hover : PyFloat.overflowBound ≤ n.natAbs := by omega
        simp [durationMs, PyFloat.ofInt, hover, bind, Except.bind] at hduration
      · intro hsmall
        have hunder : ¬PyFloat.overflowBound ≤ n.natAbs := by
          have hn := hsmall n rfl
          omega
        exact ⟨_, by simp only [durationMs, PyFloat.ofInt, if_neg hunder, bind, Except.bind]; rfl⟩
  | float x => cases x <;> simp [durationMs]
  | _ => simp [durationMs]

-- The owner of the parent span, no name where there is none.
def parentOwner (owners : Dict Str Str) : Json → Str
  | .str span => if span = [] then [] else (owners.get? span).getD []
  | _ => []

theorem callerName_ok_iff {owners : Dict Str Str} {parent : Json} {caller : Str} :
    callerName owners parent = .ok caller ↔
      (parent.truthy → parent.hashable) ∧ parentOwner owners parent = caller := by
  unfold callerName parentOwner
  cases parent with
  | str span => by_cases hspan : span = [] <;> simp [Json.truthy, Json.hashable, hspan]
  | arr items => cases items <;> simp [Json.truthy, Json.hashable]
  | obj fields => cases fields <;> simp [Json.truthy, Json.hashable]
  | _ => simp [Json.hashable]

-- Drift can be filed for a record: its name and the topic can be hashed.
def Fileable (name topic : Str) : Prop := Str.Encodable name ∧ Str.Encodable topic

variable [UnicodeData]

-- The members of an entry that the catalog looks at.
def entryText (raw : Json) (key : Str) : Str := textField (asObject raw) key

def entryParent (raw : Json) : Json := Json.getField (asObject raw) "parentSpanId"

theorem decodeEvent_ok_iff {raw : Json} :
    (∃ event, decodeEvent raw = .ok event) ↔ ReadableEntry raw := by
  cases raw with
  | obj fields =>
      have hread : ReadableEntry (.obj fields) ↔
          ∃ duration, durationMs (Json.getField fields "durationMs") = .ok duration := by
        rw [durationMs_ok_iff]
        simp [ReadableEntry]
      rw [hread]
      simp only [decodeEvent]
      cases durationMs (Json.getField fields "durationMs") <;>
        simp [bind, Except.bind, pure, Except.pure]
  | _ => simp [decodeEvent, ReadableEntry]

theorem decodeEvent_members {raw : Json} {event : Event} (h : decodeEvent raw = .ok event) :
    event.traceId = entryText raw "traceId" ∧ event.spanId = entryText raw "spanId" ∧
      event.service = entryText raw "service" ∧ event.topic = entryText raw "topic" ∧
      event.parentSpanId = entryParent raw := by
  cases raw with
  | obj fields =>
      simp only [decodeEvent] at h
      cases hduration : durationMs (Json.getField fields "durationMs") with
      | error error =>
          rw [hduration] at h
          cases h
      | ok duration =>
          rw [hduration] at h
          cases h
          exact ⟨rfl, rfl, rfl, rfl, rfl⟩
  | _ => cases h

def indexEntry (owners : Dict Str Str) (raw : Json) : Dict Str Str :=
  owners.set (entryText raw "spanId") (entryText raw "service")

-- An entry that the collector with the records of `c` takes in, `owners` being
-- the spans indexed before it.
structure SafeEvent (c : Catalog) (owners : Dict Str Str) (raw : Json) : Prop where
  readable : ReadableEntry raw
  parent : (entryParent raw).truthy → (entryParent raw).hashable
  served : consumerDrift (c.serviceOrNew (entryText raw "service")) (entryText raw "topic") →
    Fileable (c.serviceOrNew (entryText raw "service")).name (entryText raw "topic")
  sent : ∀ caller, parentOwner (indexEntry owners raw) (entryParent raw) = caller → caller ≠ [] →
    caller ≠ entryText raw "service" →
    providerDrift (c.serviceOrNew caller) (entryText raw "topic") →
    Fileable (c.serviceOrNew caller).name (entryText raw "topic")

-- Filing drift fails on text that cannot be hashed, and on nothing else.
theorem fileDrift_succeeds_iff {issues : Dict Str Fields} (h : StoredIssues issues)
    (name topic traceId : Str) :
    Py.Succeeds (fileDrift name topic traceId) issues ↔ Fileable name topic := by
  rw [Fileable, ← driftFingerprint_ok_iff]
  constructor
  · rintro ⟨_, _, hrun⟩
    cases hkey : driftFingerprint name topic with
    | ok fingerprint => exact ⟨fingerprint, rfl⟩
    | error error =>
        simp only [fileDrift, Py.bind_apply, Py.lift_apply, hkey] at hrun
        cases hrun
  · rintro ⟨fingerprint, hkey⟩
    unfold fileDrift
    rw [hkey, Py.lift_ok_bind]
    have hissue := driftIssue_spec (name, topic) traceId fingerprint
    obtain ⟨exemplars, hex⟩ := hissue.exemplars
    cases hget : issues.get? fingerprint with
    | none =>
        obtain ⟨merged, hnew, -⟩ := newIssue_driftIssue hissue exemplars
        exact ⟨(), _, by rw [mergeIssue_none hex hget, hnew]⟩
    | some existing =>
        obtain ⟨hok, -⟩ := mergeExisting_driftIssue hissue (h _ _ hget) exemplars
        exact ⟨(), _, by rw [mergeIssue_some hex hget, hok]⟩

theorem fileDriftIf_succeeds_iff {issues : Dict Str Fields} (h : StoredIssues issues)
    (p : Prop) [Decidable p] (name topic traceId : Str) :
    Py.Succeeds (if p then fileDrift name topic traceId else pure ()) issues ↔
      (p → Fileable name topic) := by
  by_cases hp : p
  · rw [if_pos hp, fileDrift_succeeds_iff h]
    simp [hp]
  · rw [if_neg hp]
    exact ⟨fun _ hp' => absurd hp' hp, fun _ => Py.Succeeds.pure _ _⟩

-- Flagging the caller asks for a parent that can be looked up.
theorem flagCaller_succeeds_iff {issues : Dict Str Fields} (h : StoredIssues issues) (c : Catalog)
    (owners : Dict Str Str) (parent : Json) (service topic traceId : Str) :
    Py.Succeeds (do
        let caller ← Py.lift (callerName owners parent)
        if caller ≠ [] ∧ caller ≠ service then
          flagProvider (c.serviceOrNew caller) topic traceId) issues ↔
      (parent.truthy → parent.hashable) ∧
        ∀ caller, parentOwner owners parent = caller → caller ≠ [] → caller ≠ service →
          providerDrift (c.serviceOrNew caller) topic →
          Fileable (c.serviceOrNew caller).name topic := by
  have hcaller (caller : Str) : Py.Succeeds (if caller ≠ [] ∧ caller ≠ service then
        flagProvider (c.serviceOrNew caller) topic traceId else pure ()) issues ↔
      (caller ≠ [] → caller ≠ service → providerDrift (c.serviceOrNew caller) topic →
        Fileable (c.serviceOrNew caller).name topic) := by
    rw [flagProvider_eq]
    by_cases hforeign : caller ≠ [] ∧ caller ≠ service
    · rw [if_pos hforeign, fileDriftIf_succeeds_iff h]
      exact ⟨fun hfile _ _ => hfile, fun hfile => hfile hforeign.1 hforeign.2⟩
    · rw [if_neg hforeign]
      exact ⟨fun _ hne hother => absurd ⟨hne, hother⟩ hforeign, fun _ => Py.Succeeds.pure _ _⟩
  rw [Py.Succeeds.lift_bind_iff]
  constructor
  · rintro ⟨caller, hname, hrun⟩
    obtain ⟨hhash, rfl⟩ := callerName_ok_iff.mp hname
    refine ⟨hhash, fun caller howner => ?_⟩
    rw [← howner]
    exact (hcaller _).mp hrun
  · rintro ⟨hhash, hfile⟩
    exact ⟨_, callerName_ok_iff.mpr ⟨hhash, rfl⟩, (hcaller _).mpr (hfile _ rfl)⟩

-- A catalog in the middle of a batch that started from `c`: the records are
-- those of `c`, the spans are indexed by `owners`.
structure Observing (c : Catalog) (owners : Dict Str Str) (c' : Catalog) : Prop where
  records : ∀ name, c'.serviceOrNew name = c.serviceOrNew name
  owners : c'.spanOwner = owners
  stored : StoresIssues c'

theorem ingestEvent_succeeds_iff {c c' : Catalog} {owners : Dict Str Str}
    (h : Observing c owners c') (raw : Json) :
    Py.Succeeds (ingestEvent raw) c' ↔ SafeEvent c owners raw := by
  cases hdecode : decodeEvent raw with
  | error error =>
      have hunread : ¬ReadableEntry raw := by
        rw [← decodeEvent_ok_iff, hdecode]
        simp
      constructor
      · intro hrun
        exact absurd hrun (Py.Succeeds.of_error (ingestEvent_error hdecode c'))
      · intro hsafe
        exact absurd hsafe.readable hunread
  | ok event =>
      obtain ⟨-, hspan, hservice, htopic, hparent⟩ := decodeEvent_members hdecode
      have hread : ReadableEntry raw := decodeEvent_ok_iff.mp ⟨event, hdecode⟩
      have howners : (c'.observe event).spanOwner = indexEntry owners raw := by
        simp only [Catalog.observe, indexEntry, h.owners, hspan, hservice]
      have hrun : Py.Succeeds (ingestEvent raw) c' ↔
          Py.Succeeds ((c'.observe event).flagDrift event) c'.issues := by
        unfold Py.Succeeds
        rw [ingestEvent_ok hdecode]
        cases (c'.observe event).flagDrift event c'.issues with
        | mk outcome issues => cases outcome <;> simp [raises, Except.mapError]
      rw [hrun, flagDrift_eq, howners, hparent]
      simp only [Catalog.serviceOrNew_observe, h.records, flagConsumer_eq, flagProvider_eq, hservice,
        htopic]
      have hserved : Py.Preserves StoredIssues
          (if consumerDrift (c.serviceOrNew (entryText raw "service")) (entryText raw "topic") then
            fileDrift (c.serviceOrNew (entryText raw "service")).name (entryText raw "topic")
              event.traceId else pure ()) := by
        split
        · exact fileDrift_storedIssues _ _ _
        · exact .pure _
      have hcaller (issues : Dict Str Fields) (hissues : StoredIssues issues) :=
        flagCaller_succeeds_iff hissues c (indexEntry owners raw) (entryParent raw)
          (entryText raw "service") (entryText raw "topic") event.traceId
      simp only [flagProvider_eq] at hcaller
      rw [Py.Succeeds.bind_iff_of_preserves hserved (fun _ issues hissues => hcaller issues hissues)
        h.stored, fileDriftIf_succeeds_iff h.stored]
      constructor
      · rintro ⟨hfile, hhash, hsent⟩
        exact ⟨hread, hhash, hfile, hsent⟩
      · intro hsafe
        exact ⟨hsafe.served, hsafe.parent, hsafe.sent⟩

theorem observing_ingestEvent {c c' : Catalog} {owners : Dict Str Str}
    (h : Observing c owners c') {raw : Json} {c'' : Catalog}
    (hrun : ingestEvent raw c' = (.ok (), c'')) : Observing c (indexEntry owners raw) c'' := by
  have hstored := ingestEvent_storesIssues raw c' h.stored
  rw [hrun] at hstored
  cases hdecode : decodeEvent raw with
  | error error =>
      rw [ingestEvent_error hdecode] at hrun
      cases hrun
  | ok event =>
      obtain ⟨-, hspan, hservice, -, -⟩ := decodeEvent_members hdecode
      rw [ingestEvent_ok hdecode, Prod.mk.injEq] at hrun
      obtain ⟨-, rfl⟩ := hrun
      refine ⟨fun name => ?_, ?_, hstored⟩
      · exact (Catalog.serviceOrNew_observe c' event name).trans (h.records name)
      · simp only [Catalog.observe, indexEntry, h.owners, hspan, hservice]

def entriesOf (body : Fields) (key : Str) : Except PyError (List Json) :=
  Json.iter (Json.orElse (Json.getField body key) (.arr []))

theorem ingestTraces_succeeds_iff {c : Catalog} (h : StoresIssues c) (body : Fields) :
    Py.Succeeds (ingestTraces body) c ↔
      ∃ entries, entriesOf body "events" = .ok entries ∧
        Py.Each (SafeEvent c) indexEntry c.spanOwner entries := by
  have hstart : Observing c c.spanOwner c := ⟨fun _ => rfl, rfl, h⟩
  have hloop (entries : List Json) : Py.Succeeds (Py.mapEach ingestEvent entries) c ↔
      Py.Each (SafeEvent c) indexEntry c.spanOwner entries :=
    Py.Succeeds.mapEach_iff (Observing c) (SafeEvent c) indexEntry
      (fun _ _ raw hobs => ingestEvent_succeeds_iff hobs raw)
      (fun _ _ _ _ _ hobs hrun => observing_ingestEvent hobs hrun) hstart entries
  unfold ingestTraces
  rw [Py.Succeeds.lift_bind_iff]
  simp only [raises_ok_iff, ← hloop]
  refine exists_congr fun entries => and_congr_right fun _ => ?_
  exact Py.Succeeds.bind_pure_iff

end Traces

section Issues

-- The time span an issue holds or reports.
structure Window where
  firstSeen : Json
  lastSeen : Json

def windowOf (issue : Fields) : Window :=
  ⟨Json.getField issue "firstSeen", Json.getField issue "lastSeen"⟩

def Comparable (held incoming : Json) : Prop := ∃ less, Json.lt held incoming = .ok less

-- Every timestamp the issue reports compares with the held one, if there is one.
structure Window.Fits (held incoming : Window) : Prop where
  firstSeen : incoming.firstSeen ≠ .null →
    Comparable incoming.firstSeen (Json.orElse held.firstSeen incoming.firstSeen)
  lastSeen : incoming.lastSeen ≠ .null →
    Comparable (Json.orElse held.lastSeen incoming.lastSeen) incoming.lastSeen

-- The held timestamp after an issue that reports `incoming`.
def seenAfter (pick : Json → Json → Except PyError Json) (held incoming : Json) : Json :=
  if incoming = .null then held else ((pick (Json.orElse held incoming) incoming).toOption).getD held

def Window.after (held incoming : Window) : Window :=
  ⟨seenAfter Json.min held.firstSeen incoming.firstSeen,
    seenAfter Json.max held.lastSeen incoming.lastSeen⟩

theorem min_ok_iff {a b : Json} : (∃ c, Json.min a b = .ok c) ↔ Comparable b a := by
  unfold Json.min Comparable
  cases Json.lt b a <;> simp [bind, Except.bind, pure, Except.pure]

theorem max_ok_iff {a b : Json} : (∃ c, Json.max a b = .ok c) ↔ Comparable a b := by
  unfold Json.max Comparable
  cases Json.lt a b <;> simp [bind, Except.bind, pure, Except.pure]

theorem widen_succeeds_iff {pick : Json → Json → Except PyError Json} {key : Str}
    {issue existing : Fields} :
    Py.Succeeds (widen pick key issue) existing ↔ (Json.getField issue key ≠ .null →
      ∃ value, pick (Json.orElse (Json.getField existing key) (Json.getField issue key))
        (Json.getField issue key) = .ok value) := by
  unfold Py.Succeeds widen
  split
  · rename_i hnull
    simp [hnull]
  · rename_i hseen
    have hne : Json.getField issue key ≠ .null := hseen
    cases pick (Json.orElse (Json.getField existing key) (Json.getField issue key))
      (Json.getField issue key) <;> simp [hne]

theorem widen_seen {pick : Json → Json → Except PyError Json} {key : Str}
    {issue existing widened : Fields} (h : widen pick key issue existing = (.ok (), widened)) :
    Json.getField widened key =
      seenAfter pick (Json.getField existing key) (Json.getField issue key) := by
  unfold widen at h
  unfold seenAfter
  split at h
  · rename_i hnull
    cases h
    rw [if_pos hnull]
  · rename_i hseen
    rw [if_neg hseen]
    cases hpick : pick (Json.orElse (Json.getField existing key) (Json.getField issue key))
        (Json.getField issue key) with
    | error error =>
        rw [hpick] at h
        cases h
    | ok value =>
        rw [hpick] at h
        cases h
        simp [Json.getField, Except.toOption]

theorem getField_congr {a b : Fields} {key : Str} (h : Entries.get? key a = Entries.get? key b) :
    Json.getField a key = Json.getField b key := by
  unfold Json.getField
  rw [h]

-- The two ends of the window are widened one after the other.
theorem widenWindow_succeeds_iff (issue existing : Fields) :
    Py.Succeeds (widenWindow issue) existing ↔ (windowOf existing).Fits (windowOf issue) := by
  have hkept (widened : Fields) (h : widen Json.min "firstSeen" issue existing = (.ok (), widened)) :
      Json.getField widened "lastSeen" = Json.getField existing "lastSeen" := by
    have hget : Entries.get? ("lastSeen" : Str) (widen Json.min "firstSeen" issue existing).2 = _ :=
      get?_widen _ (by simp) _ _
    rw [h] at hget
    exact getField_congr hget
  unfold widenWindow
  rw [Py.Succeeds.bind_iff]
  constructor
  · rintro ⟨⟨⟩, widened, hfirst, hlast⟩
    rw [widen_succeeds_iff, hkept widened hfirst] at hlast
    have hfirst' := widen_succeeds_iff.mp ⟨(), widened, hfirst⟩
    exact ⟨fun hne => min_ok_iff.mp (hfirst' hne), fun hne => max_ok_iff.mp (hlast hne)⟩
  · intro hfits
    have hfirst := widen_succeeds_iff.mpr fun hne => min_ok_iff.mpr (hfits.firstSeen hne)
    obtain ⟨⟨⟩, widened, hrun⟩ := hfirst
    refine ⟨(), widened, hrun, widen_succeeds_iff.mpr fun hne => ?_⟩
    rw [hkept widened hrun]
    exact max_ok_iff.mpr (hfits.lastSeen hne)

theorem windowOf_widenWindow {issue existing widened : Fields}
    (h : widenWindow issue existing = (.ok (), widened)) :
    windowOf widened = (windowOf existing).after (windowOf issue) := by
  unfold widenWindow at h
  rw [Py.bind_apply] at h
  cases hfirst : widen Json.min "firstSeen" issue existing with
  | mk outcome first =>
      rw [hfirst] at h
      cases outcome with
      | error error => cases h
      | ok _ =>
          dsimp only at h
          have hfirstKept : Entries.get? ("lastSeen" : Str) (widen Json.min "firstSeen" issue existing).2 = _ :=
            get?_widen _ (by simp) _ _
          have hlastKept : Entries.get? ("firstSeen" : Str) (widen Json.max "lastSeen" issue first).2 = _ :=
            get?_widen _ (by simp) _ _
          rw [hfirst] at hfirstKept
          rw [h] at hlastKept
          have hmin := widen_seen hfirst
          have hmax := widen_seen h
          rw [getField_congr hfirstKept] at hmax
          rw [← getField_congr hlastKept] at hmin
          simp only [windowOf, Window.after, hmin, hmax]

theorem windowOf_aggregate (existing issue : Fields) (count : Int) (exemplars : List Json) :
    windowOf (aggregate (overwrite existing issue) issue count exemplars) = windowOf existing := by
  have hkept {key : Str} (hkey : key = "firstSeen" ∨ key = "lastSeen") :
      Entries.get? key (aggregate (overwrite existing issue) issue count exemplars) =
        Entries.get? key existing := by
    rcases hkey with rfl | rfl <;> rw [get?_aggregate _ _ _ _ (by simp)] <;>
      simp [get?_overwrite_of_mem, aggregatedIssueFields]
  unfold windowOf
  rw [getField_congr (hkept (Or.inl rfl)), getField_congr (hkept (Or.inr rfl))]

theorem onIssues_succeeds_iff {α : Type} {x : Merge α} {c : Catalog} :
    Py.Succeeds (onIssues x) c ↔ Py.Succeeds x c.issues := by
  unfold Py.Succeeds onIssues
  cases x c.issues with
  | mk outcome issues => cases outcome <;> simp [raises, Except.mapError]

-- What is read of an issue before it is merged: exemplars that can be listed and
-- a count that is not infinite.
structure ReadableIssue (issue : Fields) : Prop where
  exemplars : ∀ value, Entries.get? ("exemplarTraceIds" : Str) issue = some value →
    ∃ items, Json.iter value = .ok items
  count : ∀ negative, Entries.get? ("count" : Str) issue ≠ some (.float (.infinity negative))

theorem incomingExemplars_ok_iff {issue : Fields} :
    (∃ exemplars, incomingExemplars issue = .ok exemplars) ↔
      ∀ value, Entries.get? ("exemplarTraceIds" : Str) issue = some value →
        ∃ items, Json.iter value = .ok items := by
  unfold incomingExemplars
  cases Entries.get? ("exemplarTraceIds" : Str) issue <;> simp [Json.iter]

variable [UnicodeData]

theorem safeInt_ok_iff {value : Json} :
    (∃ n, safeInt value = .ok n) ↔ ∀ negative, value ≠ .float (.infinity negative) := by
  cases value with
  | float x => cases x <;> simp [safeInt, PyFloat.truncate]
  | _ => simp [safeInt]

theorem countOf_ok_iff {issue : Fields} :
    (∃ n, safeInt (countOf issue) = .ok n) ↔
      ∀ negative, Entries.get? ("count" : Str) issue ≠ some (.float (.infinity negative)) := by
  rw [safeInt_ok_iff]
  unfold countOf
  cases Entries.get? ("count" : Str) issue <;> simp

theorem windowOf_newIssue {issue merged : Fields} {exemplars : List Json}
    (h : newIssue issue exemplars = .ok merged) : windowOf merged = windowOf issue := by
  rw [newIssue_eq] at h
  cases hcount : safeInt (countOf issue) with
  | error error =>
      rw [hcount] at h
      cases h
  | ok count =>
      rw [hcount] at h
      cases h
      simp [windowOf, Json.getField, get?_mergeErrorDetail, Entries.get?_erase, Entries.get?_set]

-- The window that is held for a fingerprint after an issue is merged into it.
def heldAfter (held : Option Window) (issue : Fields) : Window :=
  match held with
  | none => windowOf issue
  | some held => held.after (windowOf issue)

theorem mergeIssue_succeeds_iff {issues : Dict Str Fields} (h : StoredIssues issues)
    (fingerprint : Str) (issue : Fields) :
    Py.Succeeds (mergeIssue fingerprint issue) issues ↔ ReadableIssue issue ∧
      ∀ existing, issues.get? fingerprint = some existing →
        (windowOf existing).Fits (windowOf issue) := by
  cases hex : incomingExemplars issue with
  | error error =>
      have hunread : ¬ReadableIssue issue := by
        intro hread
        obtain ⟨exemplars, hok⟩ := incomingExemplars_ok_iff.mpr hread.exemplars
        rw [hex] at hok
        cases hok
      constructor
      · intro hrun
        exact absurd hrun (Py.Succeeds.of_error (mergeIssue_malformed hex issues))
      · intro hread
        exact absurd hread.1 hunread
  | ok exemplars =>
      have hread : ReadableIssue issue ↔ ∃ n, safeInt (countOf issue) = .ok n := by
        rw [countOf_ok_iff]
        constructor
        · intro hissue
          exact hissue.count
        · intro hcount
          exact ⟨incomingExemplars_ok_iff.mp ⟨exemplars, hex⟩, hcount⟩
      rw [hread]
      unfold Py.Succeeds
      cases hget : issues.get? fingerprint with
      | none =>
          rw [mergeIssue_none hex hget, newIssue_eq]
          cases safeInt (countOf issue) <;> simp [Except.map]
      | some existing =>
          obtain ⟨⟨n, hn⟩, ⟨held, hheld⟩⟩ := h fingerprint existing hget
          rw [mergeIssue_some hex hget, mergeExisting_eq hn hheld]
          cases hcount : safeInt (countOf issue) with
          | error error => simp
          | ok delta =>
              have hwindow := widenWindow_succeeds_iff issue
                (aggregate (overwrite existing issue) issue (n + delta)
                  (combinedExemplars held exemplars))
              rw [windowOf_aggregate] at hwindow
              constructor
              · rintro ⟨a, _, hrun⟩
                rw [Prod.mk.injEq] at hrun
                refine ⟨⟨delta, rfl⟩, ?_⟩
                rintro _ ⟨⟩
                exact hwindow.mp ⟨a, _, Prod.ext hrun.1 rfl⟩
              · rintro ⟨-, hfits⟩
                obtain ⟨a, widened, hrun⟩ := hwindow.mpr (hfits existing rfl)
                exact ⟨a, issues.set fingerprint widened, by simp only [hrun]⟩

-- What a merge that returns leaves for its fingerprint.
theorem mergeIssue_window {issues issues' : Dict Str Fields} (h : StoredIssues issues)
    {fingerprint : Str} {issue : Fields} (hrun : mergeIssue fingerprint issue issues = (.ok (), issues')) :
    ∃ merged, issues' = issues.set fingerprint merged ∧
      windowOf merged = heldAfter ((issues.get? fingerprint).map windowOf) issue := by
  cases hex : incomingExemplars issue with
  | error error =>
      rw [mergeIssue_malformed hex] at hrun
      cases hrun
  | ok exemplars =>
      cases hget : issues.get? fingerprint with
      | none =>
          rw [mergeIssue_none hex hget] at hrun
          cases hnew : newIssue issue exemplars with
          | error error =>
              rw [hnew] at hrun
              cases hrun
          | ok merged =>
              rw [hnew] at hrun
              cases hrun
              exact ⟨merged, rfl, windowOf_newIssue hnew⟩
      | some existing =>
          obtain ⟨⟨n, hn⟩, ⟨held, hheld⟩⟩ := h fingerprint existing hget
          rw [mergeIssue_some hex hget, Prod.mk.injEq] at hrun
          obtain ⟨hok, rfl⟩ := hrun
          refine ⟨_, rfl, ?_⟩
          rw [mergeExisting_eq hn hheld] at hok ⊢
          cases hcount : safeInt (countOf issue) with
          | error error =>
              rw [hcount] at hok
              cases hok
          | ok delta =>
              rw [hcount] at hok
              rw [windowOf_widenWindow (Prod.ext hok rfl), windowOf_aggregate]
              rfl

-- The window held for each fingerprint.
abbrev Windows := Str → Option Window

def windowsOf (issues : Dict Str Fields) : Windows := fun fingerprint =>
  (issues.get? fingerprint).map windowOf

-- An entry of an issues batch that merges into issues with these windows, or is
-- skipped because it has no fingerprint.
def SafeIssue (windows : Windows) (raw : Json) : Prop :=
  ∃ issue, raw = .obj issue ∧ ((Json.getField issue "fingerprint").truthy → ReadableIssue issue ∧
    ∀ held, windows (Json.getField issue "fingerprint").text = some held → held.Fits (windowOf issue))

def windowsAfter (windows : Windows) (raw : Json) : Windows :=
  let issue := asObject raw
  let fingerprint := Json.getField issue "fingerprint"
  if fingerprint.truthy then
    Function.update windows fingerprint.text (some (heldAfter (windows fingerprint.text) issue))
  else windows

-- The issues in the middle of a batch.
structure Merging (windows : Windows) (issues : Dict Str Fields) : Prop where
  stored : StoredIssues issues
  windows : windowsOf issues = windows

theorem ingestIssue_succeeds_iff {windows : Windows} {issues : Dict Str Fields}
    (h : Merging windows issues) (raw : Json) :
    Py.Succeeds (ingestIssue raw) issues ↔ SafeIssue windows raw := by
  unfold ingestIssue SafeIssue
  rw [Py.Succeeds.lift_bind_iff]
  cases raw with
  | obj issue =>
      simp only [Json.get, Except.ok.injEq, exists_eq_left', Json.obj.injEq, asObject]
      by_cases hfp : (Json.getField issue "fingerprint").truthy
      · simp only [hfp, if_true, Py.Succeeds.bind_pure_iff, mergeIssue_succeeds_iff h.stored,
          ← h.windows, windowsOf]
        simp
      · simp [hfp, Py.Succeeds.pure]
  | _ => simp [Json.get]

theorem merging_ingestIssue {windows : Windows} {issues issues' : Dict Str Fields}
    (h : Merging windows issues) {raw : Json} {merged : Nat}
    (hrun : ingestIssue raw issues = (.ok merged, issues')) :
    Merging (windowsAfter windows raw) issues' := by
  have hstored := ingestIssue_storedIssues raw issues h.stored
  rw [hrun] at hstored
  refine ⟨hstored, ?_⟩
  unfold ingestIssue at hrun
  cases raw with
  | obj issue =>
      simp only [Json.get, Py.lift_ok_bind, asObject] at hrun
      unfold windowsAfter
      by_cases hfp : (Json.getField issue "fingerprint").truthy
      · simp only [hfp, if_true, asObject] at hrun ⊢
        rw [Py.bind_apply] at hrun
        cases hmerge : mergeIssue (Json.getField issue "fingerprint").text issue issues with
        | mk outcome after =>
            rw [hmerge] at hrun
            cases outcome with
            | error error => cases hrun
            | ok _ =>
                cases hrun
                obtain ⟨held, rfl, hheld⟩ := mergeIssue_window h.stored hmerge
                funext other
                rw [← h.windows, windowsOf, Dict.get?_set, Function.update_apply]
                by_cases hother : (Json.getField issue "fingerprint").text = other
                · rw [if_pos hother, if_pos hother.symm, Option.map_some, hheld]
                  rfl
                · rw [if_neg hother, if_neg (Ne.symm hother)]
                  rfl
      · simp only [hfp, asObject, Bool.false_eq_true, if_false] at hrun ⊢
        cases hrun
        exact h.windows
  | _ =>
      rw [Py.bind_apply] at hrun
      cases hrun

theorem ingestIssues_succeeds_iff {c : Catalog} (h : StoresIssues c) {body : Fields}
    (hservice : (Json.getField body "service").truthy) :
    Py.Succeeds (ingestIssues body) c ↔
      ∃ entries, entriesOf body "issues" = .ok entries ∧
        Py.Each SafeIssue windowsAfter (windowsOf c.issues) entries := by
  have hloop (entries : List Json) : Py.Succeeds (Py.mapEach ingestIssue entries) c.issues ↔
      Py.Each SafeIssue windowsAfter (windowsOf c.issues) entries :=
    Py.Succeeds.mapEach_iff Merging SafeIssue windowsAfter
      (fun _ _ raw hmerging => ingestIssue_succeeds_iff hmerging raw)
      (fun _ _ _ _ _ hmerging hrun => merging_ingestIssue hmerging hrun) ⟨h, rfl⟩ entries
  have hrequire : require body "service" = .ok (Json.getField body "service").text := by
    simp [require, hservice]
  unfold ingestIssues updateService
  rw [hrequire, Py.lift_ok_bind, Py.Succeeds.bind_ok_iff (Py.modify_apply _ _),
    Py.Succeeds.lift_bind_iff]
  simp only [raises_ok_iff, ← hloop]
  refine exists_congr fun entries => and_congr_right fun _ => ?_
  rw [Py.Succeeds.bind_pure_iff, onIssues_succeeds_iff]
  rfl

end Issues

section Heartbeats

variable [UnicodeData]

-- A health report, if there is one, is an object.
theorem ingestHeartbeat_succeeds_iff {c : Catalog} {body : Fields}
    (hservice : (Json.getField body "service").truthy) :
    Py.Succeeds (ingestHeartbeat body) c ↔ ((Json.getField body "health").truthy →
      ∃ health, Json.getField body "health" = .obj health) := by
  have hrequire : require body "service" = .ok (Json.getField body "service").text := by
    simp [require, hservice]
  have hget {value : Json} {key : Str} : (∃ member, raises (value.get key) = .ok member) ↔
      ∃ fields, value = .obj fields := by
    cases value <;> simp [Json.get, raises, Except.mapError]
  have hhealth : (∃ health, Json.orElse (Json.getField body "health") (.obj []) = .obj health) ↔
      ((Json.getField body "health").truthy → ∃ health, Json.getField body "health" = .obj health) := by
    unfold Json.orElse
    by_cases htruthy : (Json.getField body "health").truthy <;> simp [htruthy]
  unfold ingestHeartbeat service
  rw [hrequire, Py.lift_ok_bind, Py.Succeeds.bind_ok_iff (Py.modify_apply _ _), ← hhealth, ← hget]
  simp only [Py.Succeeds.lift_bind_iff]
  constructor
  · rintro ⟨checks, hchecks, -⟩
    exact ⟨checks, hchecks⟩
  · rintro ⟨checks, hchecks⟩
    obtain ⟨healthy, hhealthy⟩ := hget.mpr (hget.mp ⟨checks, hchecks⟩)
    exact ⟨checks, hchecks, healthy, hhealthy, 1, _, rfl⟩

end Heartbeats

section Posts

-- An error that is no refusal.
def CollectorError.IsRaised (error : CollectorError) : Prop := ∃ e, error = .raised e

theorem throws_raises {σ α : Type} (r : Except PyError α) :
    Py.Throws CollectorError.IsRaised (Py.lift (raises r) : Py CollectorError σ α) := by
  refine .lift fun e he => ?_
  cases r with
  | ok a => cases he
  | error error =>
      cases he
      exact ⟨error, rfl⟩

theorem throws_onIssues {α : Type} (x : Merge α) :
    Py.Throws CollectorError.IsRaised (onIssues x) := by
  intro c e he
  rw [onIssues_apply] at he
  exact throws_raises (x c.issues).1 c e he

variable [UnicodeData]

-- The ingest refuses the body and leaves the catalog as it was, or takes it and
-- leaves the catalog in the store. Nothing else escapes.
def Collector.AllOrNothing (collector : Collector) (post : Post) : Prop :=
  match (collector.ingest post).1 with
  | .ok _ => (collector.ingest post).2.saved = some (collector.ingest post).2.catalog.snapshot
  | .error (.badRequest _) => (collector.ingest post).2.catalog.snapshot = collector.catalog.snapshot
  | .error _ => False

-- The bodies that a catalog takes in or refuses.
def Catalog.Takes (c : Catalog) (post : Post) : Prop :=
  match post.feed with
  | .register => True
  | .heartbeat => (Json.getField post.body "service").truthy →
      (Json.getField post.body "health").truthy →
        ∃ health, Json.getField post.body "health" = .obj health
  | .traces => ∃ entries, entriesOf post.body "events" = .ok entries ∧
      Py.Each (SafeEvent c) indexEntry c.spanOwner entries
  | .issues => (Json.getField post.body "service").truthy →
      ∃ entries, entriesOf post.body "issues" = .ok entries ∧
        Py.Each SafeIssue windowsAfter (windowsOf c.issues) entries

-- Only a missing service is refused, and before anything is changed.
theorem require_falsy {body : Fields} (h : ¬(Json.getField body "service").truthy) :
    ∃ message, require body "service" = .error (.badRequest message) := by
  simp [require, h]

theorem allOrNothing_of_refused {collector : Collector} {post : Post} {message : Str}
    (h : post.feed.ingest post.body collector.catalog =
      (.error (.badRequest message), collector.catalog)) : collector.AllOrNothing post := by
  unfold Collector.AllOrNothing Collector.ingest
  rw [h]

theorem allOrNothing_iff_succeeds {collector : Collector} {post : Post}
    (h : ∀ e, (post.feed.ingest post.body collector.catalog).1 = .error e → e.IsRaised) :
    collector.AllOrNothing post ↔ Py.Succeeds (post.feed.ingest post.body) collector.catalog := by
  unfold Collector.AllOrNothing Collector.ingest Py.Succeeds
  cases hrun : post.feed.ingest post.body collector.catalog with
  | mk outcome catalog =>
      rw [hrun] at h
      cases outcome with
      | ok accepted => simp
      | error e =>
          obtain ⟨error, rfl⟩ := h e rfl
          simp

theorem ingest_refused {post : Post} (hfeed : post.feed ≠ .traces)
    (h : ¬(Json.getField post.body "service").truthy) (c : Catalog) :
    ∃ message, post.feed.ingest post.body c = (.error (.badRequest message), c) := by
  obtain ⟨feed, body⟩ := post
  obtain ⟨message, hrequire⟩ := require_falsy h
  refine ⟨message, ?_⟩
  cases feed with
  | traces => exact absurd rfl hfeed
  | register => simp only [Feed.ingest, ingestRegister, Py.bind_apply, Py.lift_apply, hrequire]
  | heartbeat => simp only [Feed.ingest, ingestHeartbeat, Py.bind_apply, Py.lift_apply, hrequire]
  | issues => simp only [Feed.ingest, ingestIssues, Py.bind_apply, Py.lift_apply, hrequire]

theorem throws_ingest {post : Post}
    (h : post.feed ≠ .traces → (Json.getField post.body "service").truthy) :
    Py.Throws CollectorError.IsRaised (post.feed.ingest post.body) := by
  obtain ⟨feed, body⟩ := post
  have hrequire {α : Type} (f : Str → Ingest α) (hf : ∀ name, Py.Throws CollectorError.IsRaised (f name))
      (hservice : (Json.getField body "service").truthy) :
      Py.Throws CollectorError.IsRaised (Py.lift (require body "service") >>= f) := by
    refine .bind (.lift fun e he => ?_) hf
    simp [require, hservice] at he
  cases feed with
  | traces =>
      refine .bind (throws_raises _) fun entries => .bind (.mapEach (fun raw => ?_) entries) fun _ => .pure _
      exact .bind (throws_raises _) fun event => .bind (.modify _) fun _ => .bind .get fun c =>
        throws_onIssues _
  | register => exact hrequire _ (fun name => .bind (.modify _) fun _ => .pure _) (h (by simp))
  | heartbeat =>
      exact hrequire _ (fun name => .bind (.modify _) fun _ => .bind (throws_raises _) fun _ =>
        .bind (throws_raises _) fun _ => .bind (.modify _) fun _ => .pure _) (h (by simp))
  | issues =>
      exact hrequire _ (fun name => .bind (.modify _) fun _ => .bind (throws_raises _) fun _ =>
        .bind (throws_onIssues _) fun _ => .pure _) (h (by simp))

theorem allOrNothing_iff {collector : Collector} (h : StoresIssues collector.catalog) (post : Post) :
    collector.AllOrNothing post ↔ collector.catalog.Takes post := by
  by_cases hrefused : post.feed ≠ .traces ∧ ¬(Json.getField post.body "service").truthy
  · obtain ⟨message, hrun⟩ := ingest_refused hrefused.1 hrefused.2 collector.catalog
    have htakes : collector.catalog.Takes post := by
      unfold Catalog.Takes
      cases hfeed : post.feed with
      | register => trivial
      | heartbeat => exact fun hservice => absurd hservice hrefused.2
      | issues => exact fun hservice => absurd hservice hrefused.2
      | traces => exact absurd hfeed hrefused.1
    exact ⟨fun _ => htakes, fun _ => allOrNothing_of_refused hrun⟩
  · have hservice (hfeed : post.feed ≠ .traces) : (Json.getField post.body "service").truthy := by
      by_contra hfalsy
      exact hrefused ⟨hfeed, hfalsy⟩
    rw [allOrNothing_iff_succeeds (throws_ingest hservice collector.catalog)]
    obtain ⟨feed, body⟩ := post
    cases feed with
    | register =>
        have hname := hservice (by simp)
        simp only [Catalog.Takes, iff_true]
        refine ⟨1, collector.catalog.register (Json.getField body "service").text body, ?_⟩
        simp only [Feed.ingest, ingestRegister_apply, require, hname, if_true]
    | heartbeat =>
        have hname := hservice (by simp)
        exact (ingestHeartbeat_succeeds_iff hname).trans ⟨fun hsafe _ => hsafe, fun hsafe => hsafe hname⟩
    | traces => exact ingestTraces_succeeds_iff h body
    | issues =>
        have hname := hservice (by simp)
        exact (ingestIssues_succeeds_iff h hname).trans ⟨fun hsafe _ => hsafe, fun hsafe => hsafe hname⟩

-- In every reachable state, for every body of every feed.
theorem run_allOrNothing_iff (posts : List Post) (post : Post) :
    (Collector.empty.run posts).AllOrNothing post ↔
      (Collector.empty.run posts).catalog.Takes post := by
  refine allOrNothing_iff ?_ post
  rw [Collector.run_catalog]
  exact run_storesIssues posts storedIssues_empty

end Posts

section Example

-- A health report that is not an object, from a service not yet known.
def upBody : Fields := [Json.field "service" (.str "s"), Json.field "health" (.str "up")]

theorem upBody_not_allOrNothing :
    letI := UnicodeData.ascii
    ¬Collector.empty.AllOrNothing ⟨.heartbeat, upBody⟩ := by
  let _ := UnicodeData.ascii
  have hraised : (Collector.empty.ingest ⟨.heartbeat, upBody⟩).1 =
      .error (.raised ⟨.attributeError, []⟩) := by decide +kernel
  unfold Collector.AllOrNothing
  rw [hraised]
  exact id

end Example

end Benzene.Mesh
