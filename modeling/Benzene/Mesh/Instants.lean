import Benzene.Data.Rfc3339
import Benzene.Mesh.Totality
import Mathlib.Order.Bounds.Basic

namespace Benzene.Mesh

open Benzene.Data

section Extremes

-- Which of several times a member keeps.
inductive Extreme
  | earliest
  | latest

namespace Extreme

variable {α : Type}

def IsOf [LE α] : Extreme → Set α → α → Prop
  | .earliest, s, a => IsLeast s a
  | .latest, s, a => IsGreatest s a

def of [LinearOrder α] : Extreme → α → α → α
  | .earliest, a, b => min a b
  | .latest, a, b => max a b

-- The comparison the collector makes.
def pick : Extreme → Json → Json → Except PyError Json
  | .earliest => Json.min
  | .latest => Json.max

theorem mem_of_isOf [LE α] {x : Extreme} {s : Set α} {a : α} (h : x.IsOf s a) : a ∈ s := by
  cases x with
  | earliest => exact h.1
  | latest => exact h.1

theorem isOf_unique [PartialOrder α] {x : Extreme} {s : Set α} {a b : α} (ha : x.IsOf s a)
    (hb : x.IsOf s b) : a = b := by
  cases x with
  | earliest => exact IsLeast.unique ha hb
  | latest => exact IsGreatest.unique ha hb

theorem isOf_singleton [Preorder α] (x : Extreme) (a : α) : x.IsOf {a} a := by
  cases x with
  | earliest => exact isLeast_singleton
  | latest => exact isGreatest_singleton

theorem isOf_insert [LinearOrder α] {x : Extreme} {s : Set α} {a b : α} (h : x.IsOf s a) :
    x.IsOf (insert b s) (x.of b a) := by
  cases x with
  | earliest => exact IsLeast.insert b h
  | latest => exact IsGreatest.insert b h

theorem pick_str (x : Extreme) (a b : Str) : x.pick (.str a) (.str b) = .ok (.str (x.of b a)) := by
  cases x with
  | earliest =>
      simp only [pick, of, Json.min, Json.lt, bind, Except.bind, pure, Except.pure]
      by_cases h : b < a
      · simp [h, min_eq_left_of_lt h]
      · simp [h, min_eq_right (not_lt.mp h)]
  | latest =>
      simp only [pick, of, Json.max, Json.lt, bind, Except.bind, pure, Except.pure]
      by_cases h : a < b
      · simp [h, max_eq_left_of_lt h]
      · simp [h, max_eq_right (not_lt.mp h)]

end Extreme

-- A member that is absent or an RFC 3339 date-time.
def TimeMember (value : Json) : Prop :=
  value = .null ∨ ∃ stamp t, value = .str stamp ∧ Rfc3339.instant stamp = some t

def stampsOf : Json → List Str
  | .str stamp => [stamp]
  | _ => []

-- The stamps that were given for a name.
def stampsAt (given : List (Str × Json)) (name : Str) : List Str :=
  given.flatMap fun entry => if entry.1 = name then stampsOf entry.2 else []

-- The instants they denote.
def instants (stamps : List Str) : Set Int :=
  {t | ∃ stamp ∈ stamps, Rfc3339.instant stamp = some t}

-- What is held denotes the extreme instant of the stamps.
def Extreme.Denotes (x : Extreme) (stamps : List Str) (held : Json) : Prop :=
  (stamps = [] → held = .null) ∧ (stamps ≠ [] →
    ∃ stamp t, held = .str stamp ∧ Rfc3339.instant stamp = some t ∧ x.IsOf (instants stamps) t)

-- The extreme one of the texts denotes the extreme instant.
def Extreme.TextAgrees (x : Extreme) (stamps : List Str) : Prop :=
  ∀ stamp, x.IsOf {s | s ∈ stamps} stamp →
    ∃ t, Rfc3339.instant stamp = some t ∧ x.IsOf (instants stamps) t

-- What is held is the extreme one of the texts.
def Extreme.Holds (x : Extreme) (stamps : List Str) (held : Json) : Prop :=
  (stamps = [] → held = .null) ∧
    (stamps ≠ [] → ∃ stamp, held = .str stamp ∧ stamp ≠ [] ∧ x.IsOf {s | s ∈ stamps} stamp)

theorem stampsAt_append (given more : List (Str × Json)) (name : Str) :
    stampsAt (given ++ more) name = stampsAt given name ++ stampsAt more name := by
  simp [stampsAt]

theorem stampsAt_singleton (name other : Str) (value : Json) :
    stampsAt [(name, value)] other = if name = other then stampsOf value else [] := by
  simp [stampsAt]

theorem Extreme.holds_nil (x : Extreme) : x.Holds [] .null := ⟨fun _ => rfl, fun h => absurd rfl h⟩

theorem Extreme.denotes_iff {x : Extreme} {stamps : List Str} {held : Json} (h : x.Holds stamps held) :
    x.Denotes stamps held ↔ x.TextAgrees stamps := by
  by_cases hempty : stamps = []
  · subst hempty
    refine ⟨fun _ stamp hstamp => ?_, fun _ => ⟨h.1, fun hne => absurd rfl hne⟩⟩
    have hmem := mem_of_isOf hstamp
    simp at hmem
  · obtain ⟨stamp, rfl, -, hstamp⟩ := h.2 hempty
    constructor
    · intro hdenotes other hother
      obtain ⟨read, t, hread, hinstant, hextreme⟩ := hdenotes.2 hempty
      cases hread
      rw [isOf_unique hother hstamp]
      exact ⟨t, hinstant, hextreme⟩
    · intro hagrees
      obtain ⟨t, hinstant, hextreme⟩ := hagrees stamp hstamp
      exact ⟨fun hnil => absurd hnil hempty, fun _ => ⟨stamp, t, rfl, hinstant, hextreme⟩⟩

-- One more stamp is compared with the held one.
theorem Extreme.holds_seenAfter {x : Extreme} {stamps : List Str} {held value : Json}
    (h : x.Holds stamps held) (hvalue : TimeMember value) :
    x.Holds (stamps ++ stampsOf value) (seenAfter x.pick held value) := by
  obtain rfl | ⟨stamp, t, rfl, ht⟩ := hvalue
  · simpa [seenAfter, stampsOf] using h
  · have hstamp := Rfc3339.ne_nil_of_instant ht
    refine ⟨fun hnil => absurd hnil (by simp [stampsOf]), fun _ => ?_⟩
    by_cases hempty : stamps = []
    · rw [h.1 hempty, hempty]
      refine ⟨stamp, ?_, hstamp, ?_⟩
      · simp [seenAfter, Json.orElse, Json.truthy, pick_str, Except.toOption]
        cases x <;> simp [of]
      · simpa [stampsOf] using x.isOf_singleton stamp
    · obtain ⟨kept, rfl, hkept, hextreme⟩ := h.2 hempty
      refine ⟨x.of stamp kept, ?_, ?_, ?_⟩
      · simp [seenAfter, Json.orElse, Json.truthy, hkept, pick_str, Except.toOption]
      · have hchoice : x.of stamp kept = stamp ∨ x.of stamp kept = kept := by
          cases x with
          | earliest => exact min_choice stamp kept
          | latest => exact max_choice stamp kept
        rcases hchoice with hx | hx <;> rw [hx] <;> assumption
      · have hset : {s | s ∈ stamps ++ stampsOf (.str stamp)} = insert stamp {s | s ∈ stamps} := by
          ext s
          simp [stampsOf, or_comm]
        rw [hset]
        exact isOf_insert hextreme

end Extremes

section Issues

-- What the merged issues gave for a member.
def given (key : Str) (reports : List (Str × Fields)) : List (Str × Json) :=
  reports.map fun report => (report.1, Json.getField report.2 key)

theorem stampsAt_given_singleton (key fingerprint other : Str) (issue : Fields) :
    stampsAt (given key [(fingerprint, issue)]) other =
      if fingerprint = other then stampsOf (Json.getField issue key) else [] :=
  stampsAt_singleton fingerprint other _

theorem given_append (key : Str) (reports more : List (Str × Fields)) :
    given key (reports ++ more) = given key reports ++ given key more := by
  simp [given]

def TimedIssue (issue : Fields) : Prop :=
  TimeMember (Json.getField issue "firstSeen") ∧ TimeMember (Json.getField issue "lastSeen")

-- No issue yet has a window without times.
def Windows.at (windows : Windows) (fingerprint : Str) : Window :=
  (windows fingerprint).getD ⟨.null, .null⟩

-- The held windows are the textual extremes of what was reported.
structure HoldsTimes (reports : List (Str × Fields)) (windows : Windows) : Prop where
  firstSeen : ∀ fingerprint, Extreme.earliest.Holds (stampsAt (given "firstSeen" reports) fingerprint)
    (windows.at fingerprint).firstSeen
  lastSeen : ∀ fingerprint, Extreme.latest.Holds (stampsAt (given "lastSeen" reports) fingerprint)
    (windows.at fingerprint).lastSeen

theorem holdsTimes_empty : HoldsTimes [] (windowsOf Dict.empty) :=
  ⟨fun _ => Extreme.holds_nil _, fun _ => Extreme.holds_nil _⟩

-- A held time is text, so any reported time compares with it.
theorem comparable_of_holds {x : Extreme} {stamps : List Str} {held value : Json}
    (h : x.Holds stamps held) (hvalue : TimeMember value) (hne : value ≠ .null) :
    Comparable value (Json.orElse held value) ∧ Comparable (Json.orElse held value) value := by
  obtain ⟨kept, hkept⟩ : ∃ kept, Json.orElse held value = .str kept := by
    obtain rfl | ⟨stamp, -, rfl, -⟩ := hvalue
    · exact absurd rfl hne
    · by_cases hempty : stamps = []
      · exact ⟨stamp, by rw [h.1 hempty]; rfl⟩
      · obtain ⟨kept, rfl, hkept, -⟩ := h.2 hempty
        exact ⟨kept, by simp [Json.orElse, Json.truthy, hkept]⟩
  obtain rfl | ⟨stamp, -, rfl, -⟩ := hvalue
  · exact absurd rfl hne
  · rw [hkept]
    exact ⟨⟨_, rfl⟩, ⟨_, rfl⟩⟩

theorem fits_of_holdsTimes {reports : List (Str × Fields)} {windows : Windows}
    (h : HoldsTimes reports windows) {issue : Fields} (hissue : TimedIssue issue) (fingerprint : Str) :
    (windows.at fingerprint).Fits (windowOf issue) :=
  ⟨fun hne => (comparable_of_holds (h.firstSeen fingerprint) hissue.1 hne).1,
    fun hne => (comparable_of_holds (h.lastSeen fingerprint) hissue.2 hne).2⟩

theorem heldAfter_at {windows : Windows} {issue : Fields} (hissue : TimedIssue issue)
    (fingerprint : Str) :
    heldAfter (windows fingerprint) issue = (windows.at fingerprint).after (windowOf issue) := by
  have hblank {x : Extreme} {value : Json} (hvalue : TimeMember value) :
      value = seenAfter x.pick .null value := by
    obtain rfl | ⟨stamp, -, rfl, -⟩ := hvalue
    · rfl
    · have hself : x.of stamp stamp = stamp := by cases x <;> simp [Extreme.of]
      simp [seenAfter, Json.orElse, Json.truthy, Extreme.pick_str, hself, Except.toOption]
  unfold heldAfter Windows.at
  cases windows fingerprint with
  | some held => rfl
  | none =>
      have hfirst := hblank (x := .earliest) hissue.1
      have hlast := hblank (x := .latest) hissue.2
      simp only [Option.getD_none, Window.after, windowOf, Window.mk.injEq]
      exact ⟨hfirst, hlast⟩

-- One more merged issue.
theorem holdsTimes_update {reports : List (Str × Fields)} {windows : Windows}
    (h : HoldsTimes reports windows) (fingerprint : Str) {issue : Fields} (hissue : TimedIssue issue) :
    HoldsTimes (reports ++ [(fingerprint, issue)])
      (Function.update windows fingerprint (some (heldAfter (windows fingerprint) issue))) := by
  rw [heldAfter_at hissue]
  have hat (other : Str) :
      Windows.at (Function.update windows fingerprint
        (some ((windows.at fingerprint).after (windowOf issue)))) other =
        if fingerprint = other then (windows.at other).after (windowOf issue)
        else windows.at other := by
    by_cases hother : fingerprint = other
    · subst hother
      simp [Windows.at]
    · simp [Windows.at, hother, Function.update_of_ne (Ne.symm hother)]
  have hone {x : Extreme} {key : Str} {time : Window → Json}
      (hheld : ∀ other, x.Holds (stampsAt (given key reports) other) (time (windows.at other)))
      (htime : ∀ held, time (held.after (windowOf issue)) =
        seenAfter x.pick (time held) (Json.getField issue key))
      (hmember : TimeMember (Json.getField issue key)) (other : Str) :
      x.Holds (stampsAt (given key (reports ++ [(fingerprint, issue)])) other)
        (time (if fingerprint = other then (windows.at other).after (windowOf issue)
          else windows.at other)) := by
    rw [given_append, stampsAt_append, stampsAt_given_singleton]
    by_cases hother : fingerprint = other
    · rw [if_pos hother, if_pos hother, htime]
      exact Extreme.holds_seenAfter (hheld other) hmember
    · rw [if_neg hother, if_neg hother, List.append_nil]
      exact hheld other
  refine ⟨fun other => ?_, fun other => ?_⟩ <;> rw [hat]
  · exact hone h.firstSeen (fun _ => rfl) hissue.1 other
  · exact hone h.lastSeen (fun _ => rfl) hissue.2 other

-- A merge of an issue without times moves no window.
theorem holdsTimes_timeless {reports : List (Str × Fields)} {issues : Dict Str Fields}
    {fingerprint : Str} {issue : Fields} (hissue : windowOf issue = ⟨.null, .null⟩)
    (h : HoldsTimes (reports ++ [(fingerprint, issue)]) (windowsOf issues)) :
    HoldsTimes reports (windowsOf issues) := by
  have hnone (key : Str) (hkey : Json.getField issue key = .null) (other : Str) :
      stampsAt (given key (reports ++ [(fingerprint, issue)])) other =
        stampsAt (given key reports) other := by
    rw [given_append, stampsAt_append, stampsAt_given_singleton, hkey]
    simp [stampsOf]
  obtain ⟨hfirst, hlast⟩ := (Window.mk.injEq _ _ _ _).mp hissue
  refine ⟨fun other => ?_, fun other => ?_⟩
  · rw [← hnone _ hfirst]
    exact h.firstSeen other
  · rw [← hnone _ hlast]
    exact h.lastSeen other

variable [UnicodeData]

-- An identified issue is merged unless reading its exemplars or its count raises.
def isMerged (issue : Fields) : Bool :=
  (incomingExemplars issue).isOk && (safeInt (countOf issue)).isOk

-- The issues of a batch that are merged, up to the first entry that raises.
def mergedIssues : List Json → List (Str × Fields)
  | .obj issue :: rest =>
      let fingerprint := Json.getField issue "fingerprint"
      if !fingerprint.truthy then mergedIssues rest
      else if isMerged issue then (fingerprint.text, issue) :: mergedIssues rest
      else []
  | _ => []

def reported (post : Post) : List (Str × Fields) :=
  match post.feed, require post.body "service", entriesOf post.body "issues" with
  | .issues, .ok _, .ok entries => mergedIssues entries
  | _, _, _ => []

theorem isMerged_iff {issue : Fields} : isMerged issue = true ↔ ReadableIssue issue := by
  simp only [isMerged, Bool.and_eq_true, Except.isOk_iff, incomingExemplars_ok_iff, countOf_ok_iff]
  constructor
  · rintro ⟨hexemplars, hcount⟩
    exact ⟨hexemplars, hcount⟩
  · intro h
    exact ⟨h.exemplars, h.count⟩

-- A merge that cannot read the issue leaves the windows as they were.
theorem windowsOf_mergeIssue_of_not {issues : Dict Str Fields} (h : StoredIssues issues)
    (fingerprint : Str) {issue : Fields} (hissue : isMerged issue = false) :
    windowsOf (mergeIssue fingerprint issue issues).2 = windowsOf issues := by
  cases hex : incomingExemplars issue with
  | error error => rw [mergeIssue_malformed hex]
  | ok exemplars =>
      obtain ⟨error, hcount⟩ : ∃ error, safeInt (countOf issue) = .error error := by
        cases hcount : safeInt (countOf issue) with
        | error error => exact ⟨error, rfl⟩
        | ok n => simp [isMerged, hex, hcount, Except.isOk, Except.toBool] at hissue
      cases hget : issues.get? fingerprint with
      | none => rw [mergeIssue_none hex hget, newIssue_eq, hcount]; rfl
      | some existing =>
          obtain ⟨⟨n, hn⟩, ⟨held, hheld⟩⟩ := h fingerprint existing hget
          rw [mergeIssue_some hex hget, mergeExisting_eq hn hheld, hcount]
          funext other
          rw [windowsOf, Dict.get?_set]
          split
          · rename_i hother
            have hkept {key : Str} (hkey : key ∈ aggregatedIssueFields) :=
              getField_congr (get?_overwrite_of_mem hkey existing issue)
            rw [windowsOf, ← hother, hget, Option.map_some, Option.map_some, windowOf, windowOf,
              hkept (by simp [aggregatedIssueFields]), hkept (by simp [aggregatedIssueFields])]
          · rfl

theorem windowsOf_mergeIssue {issues : Dict Str Fields} (h : StoredIssues issues)
    {fingerprint : Str} {issue : Fields} (hread : isMerged issue = true)
    (hfits : ((windowsOf issues).at fingerprint).Fits (windowOf issue)) :
    (mergeIssue fingerprint issue issues).1 = .ok () ∧
      windowsOf (mergeIssue fingerprint issue issues).2 =
        Function.update (windowsOf issues) fingerprint
          (some (heldAfter (windowsOf issues fingerprint) issue)) := by
  have hsucceeds : Py.Succeeds (mergeIssue fingerprint issue) issues := by
    refine (mergeIssue_succeeds_iff h fingerprint issue).mpr ⟨isMerged_iff.mp hread, ?_⟩
    intro existing hget
    simpa [Windows.at, windowsOf, hget] using hfits
  obtain ⟨⟨⟩, after, hrun⟩ := hsucceeds
  obtain ⟨merged, rfl, hmerged⟩ := mergeIssue_window h hrun
  rw [hrun]
  refine ⟨rfl, ?_⟩
  funext other
  rw [windowsOf, Dict.get?_set, Function.update_apply]
  by_cases hother : fingerprint = other
  · rw [if_pos hother, if_pos hother.symm, Option.map_some, hmerged]
    rfl
  · rw [if_neg hother, if_neg (Ne.symm hother)]
    rfl

-- The issues of a catalog that merged `reports`.
structure MergedTimes (reports : List (Str × Fields)) (issues : Dict Str Fields) : Prop where
  stored : StoredIssues issues
  times : HoldsTimes reports (windowsOf issues)

theorem ingestIssue_skipped {issue : Fields} (h : ¬(Json.getField issue "fingerprint").truthy)
    (issues : Dict Str Fields) : ingestIssue (.obj issue) issues = (.ok 0, issues) := by
  simp [ingestIssue, Json.get, Py.bind_apply, h]

theorem ingestIssue_obj {issue : Fields} (h : (Json.getField issue "fingerprint").truthy) :
    ingestIssue (.obj issue) = (do
      mergeIssue (Json.getField issue "fingerprint").text issue
      return 1) := by
  simp only [ingestIssue, Json.get, Py.lift_ok_bind, h, if_true, asObject]

theorem mergedTimes_mergeIssue {reports : List (Str × Fields)} {issues : Dict Str Fields}
    (h : MergedTimes reports issues) (fingerprint : Str) {issue : Fields} (hissue : TimedIssue issue)
    (hread : isMerged issue = true) :
    ∃ issues', mergeIssue fingerprint issue issues = (.ok (), issues') ∧
      MergedTimes (reports ++ [(fingerprint, issue)]) issues' := by
  obtain ⟨hok, hwindows⟩ := windowsOf_mergeIssue h.stored hread
    (fits_of_holdsTimes h.times hissue fingerprint)
  refine ⟨_, Prod.ext hok rfl, mergeIssue_storedIssues fingerprint issue issues h.stored, ?_⟩
  rw [hwindows]
  exact holdsTimes_update h.times fingerprint hissue

theorem mergedTimes_mergeIssue_of_not {reports : List (Str × Fields)} {issues : Dict Str Fields}
    (h : MergedTimes reports issues) (fingerprint : Str) {issue : Fields}
    (hread : isMerged issue = false) :
    ∃ error issues', mergeIssue fingerprint issue issues = (.error error, issues') ∧
      MergedTimes reports issues' := by
  have hstored := mergeIssue_storedIssues fingerprint issue issues h.stored
  have hkept := windowsOf_mergeIssue_of_not h.stored fingerprint hread
  cases hmerge : mergeIssue fingerprint issue issues with
  | mk outcome after =>
      rw [hmerge] at hkept hstored
      cases outcome with
      | ok _ =>
          obtain ⟨hreadable, -⟩ := (mergeIssue_succeeds_iff h.stored _ _).mp ⟨_, _, hmerge⟩
          rw [← isMerged_iff, hread] at hreadable
          cases hreadable
      | error error => exact ⟨error, after, rfl, hstored, hkept ▸ h.times⟩

-- A batch merges its issues up to the first that raises.
theorem mergedTimes_mapEach {entries : List Json} (hentries : ∀ raw ∈ entries, TimedIssue (asObject raw))
    {reports : List (Str × Fields)} {issues : Dict Str Fields} (h : MergedTimes reports issues) :
    MergedTimes (reports ++ mergedIssues entries) (Py.mapEach ingestIssue entries issues).2 := by
  induction entries generalizing reports issues with
  | nil => simpa [mergedIssues] using h
  | cons raw rest ih =>
      have hrest : ∀ raw ∈ rest, TimedIssue (asObject raw) := fun other hother =>
        hentries other (List.mem_cons_of_mem _ hother)
      cases raw with
      | obj issue =>
          have hissue : TimedIssue issue := hentries _ List.mem_cons_self
          unfold mergedIssues
          by_cases hfp : (Json.getField issue "fingerprint").truthy
          · cases hread : isMerged issue with
            | true =>
                obtain ⟨issues', hmerge, hmerged⟩ := mergedTimes_mergeIssue h
                  (Json.getField issue "fingerprint").text hissue hread
                have hround : ingestIssue (.obj issue) issues = (.ok 1, issues') := by
                  rw [ingestIssue_obj hfp, Py.bind_ok hmerge]
                  rfl
                rw [Py.mapEach_ok_state hround]
                simpa [hfp] using ih hrest hmerged
            | false =>
                obtain ⟨error, issues', hmerge, hmerged⟩ := mergedTimes_mergeIssue_of_not h
                  (Json.getField issue "fingerprint").text hread
                have hround : ingestIssue (.obj issue) issues = (.error error, issues') := by
                  rw [ingestIssue_obj hfp, Py.bind_error hmerge]
                rw [Py.mapEach_error_state hround]
                simpa [hfp] using hmerged
          · rw [Py.mapEach_ok_state (ingestIssue_skipped hfp issues)]
            simpa [hfp] using ih hrest h
      | _ =>
          rw [Py.mapEach_error_state (show ingestIssue _ issues = (.error ⟨.attributeError, []⟩, issues) from rfl)]
          simpa [mergedIssues] using h

theorem mergedTimes_fileDrift (reports : List (Str × Fields)) (name topic traceId : Str) :
    Py.Preserves (MergedTimes reports) (fileDrift name topic traceId) := by
  refine .bind (.lift _) fun fingerprint issues h => ?_
  have hspec := driftIssue_spec (name, topic) traceId fingerprint
  have htimed : TimedIssue (driftIssue name topic traceId fingerprint) :=
    ⟨Or.inl hspec.firstSeen, Or.inl hspec.lastSeen⟩
  cases hread : isMerged (driftIssue name topic traceId fingerprint) with
  | true =>
      obtain ⟨issues', hmerge, hstored, htimes⟩ := mergedTimes_mergeIssue h fingerprint htimed hread
      rw [hmerge]
      refine ⟨hstored, holdsTimes_timeless ?_ htimes⟩
      rw [windowOf, hspec.firstSeen, hspec.lastSeen]
  | false =>
      obtain ⟨error, issues', hmerge, hmerged⟩ := mergedTimes_mergeIssue_of_not h fingerprint hread
      rw [hmerge]
      exact hmerged

theorem mergedTimes_flagDrift (reports : List (Str × Fields)) (c : Catalog) (event : Event) :
    Py.Preserves (MergedTimes reports) (c.flagDrift event) := by
  rw [flagDrift_eq]
  refine .bind ?_ fun _ => .bind (.lift _) fun caller => ?_
  · rw [flagConsumer_eq]
    split
    · exact mergedTimes_fileDrift reports _ _ _
    · exact .pure _
  · split
    · rw [flagProvider_eq]
      split
      · exact mergedTimes_fileDrift reports _ _ _
      · exact .pure _
    · exact .pure _

end Issues

section Runs

-- A catalog that merged `reports`, and whose events carry readable starts.
structure TimedCatalog (reports : List (Str × Fields)) (c : Catalog) : Prop where
  issues : MergedTimes reports c.issues
  events : ∀ event ∈ c.events, TimeMember event.startedAt

theorem timedCatalog_empty : TimedCatalog [] Catalog.empty :=
  ⟨⟨storedIssues_empty, holdsTimes_empty⟩, fun _ h => nomatch h⟩

variable [UnicodeData]

-- Every timestamp of the batch is absent or a date-time.
def Timed (post : Post) : Prop :=
  match post.feed with
  | .issues => ∀ entries, entriesOf post.body "issues" = .ok entries →
      ∀ raw ∈ entries, TimedIssue (asObject raw)
  | .traces => ∀ entries, entriesOf post.body "events" = .ok entries →
      ∀ raw ∈ entries, TimeMember (Json.getField (asObject raw) "startedAt")
  | _ => True

theorem timedCatalog_ingestEvent (reports : List (Str × Fields)) {raw : Json}
    (h : TimeMember (Json.getField (asObject raw) "startedAt")) :
    Py.Preserves (TimedCatalog reports) (ingestEvent raw) := by
  intro c hc
  cases hdecode : decodeEvent raw with
  | error error =>
      rw [ingestEvent_error hdecode]
      exact hc
  | ok event =>
      have hstart : event.startedAt = Json.getField (asObject raw) "startedAt" := by
        cases raw with
        | obj fields =>
            simp only [decodeEvent] at hdecode
            cases hduration : durationMs (Json.getField fields "durationMs") with
            | error error =>
                rw [hduration] at hdecode
                cases hdecode
            | ok duration =>
                rw [hduration] at hdecode
                cases hdecode
                rfl
        | _ => cases hdecode
      rw [ingestEvent_ok hdecode]
      refine ⟨mergedTimes_flagDrift reports _ event c.issues hc.issues, fun other hother => ?_⟩
      rcases List.mem_append.mp hother with hold | hnew
      · exact hc.events other hold
      · rw [List.mem_singleton.mp hnew, hstart]
        exact h

-- What a batch of issues leaves, however it ends.
theorem ingestIssues_state (body : Fields) (c : Catalog) :
    (ingestIssues body c).2.events = c.events ∧
      (ingestIssues body c).2.issues =
        match require body "service", entriesOf body "issues" with
        | .ok _, .ok entries => (Py.mapEach ingestIssue entries c.issues).2
        | _, _ => c.issues := by
  have hentriesOf : entriesOf body "issues" =
      Json.iter (Json.orElse (Json.getField body "issues") (.arr [])) := rfl
  unfold ingestIssues updateService
  rw [← hentriesOf]
  cases require body "service" with
  | error error => exact ⟨rfl, rfl⟩
  | ok name =>
      cases entriesOf body "issues" with
      | error error => exact ⟨rfl, rfl⟩
      | ok entries =>
          simp only [Py.bind_apply, Py.lift_apply, Py.modify_apply, raises, Except.mapError,
            onIssues_apply, Catalog.setService]
          cases Py.mapEach ingestIssue entries c.issues with
          | mk outcome issues => cases outcome <;> exact ⟨rfl, rfl⟩

theorem timedCatalog_ingestIssues {reports : List (Str × Fields)} {body : Fields}
    (hbody : Timed ⟨.issues, body⟩) {c : Catalog} (h : TimedCatalog reports c) :
    TimedCatalog (reports ++ reported ⟨.issues, body⟩) (ingestIssues body c).2 := by
  obtain ⟨hevents, hissues⟩ := ingestIssues_state body c
  refine ⟨?_, by rw [hevents]; exact h.events⟩
  rw [hissues]
  unfold reported
  have hbody' : ∀ entries, entriesOf body "issues" = .ok entries →
      ∀ raw ∈ entries, TimedIssue (asObject raw) := hbody
  cases require body "service" with
  | error error => simpa using h.issues
  | ok name =>
      cases hentries : entriesOf body "issues" with
      | error error => simpa using h.issues
      | ok entries => exact mergedTimes_mapEach (hbody' entries hentries) h.issues

-- Every ingest of readable times, also one that raises.
theorem timedCatalog_ingest {reports : List (Str × Fields)} {post : Post} (hpost : Timed post)
    {c : Catalog} (h : TimedCatalog reports c) :
    TimedCatalog (reports ++ reported post) (c.ingest post) := by
  obtain ⟨feed, body⟩ := post
  cases feed with
  | issues => exact timedCatalog_ingestIssues hpost h
  | register =>
      rw [show reported ⟨.register, body⟩ = [] from rfl, List.append_nil]
      exact Py.Preserves.bind (.lift _) (fun _ => .bind (.modify fun _ hc => ⟨hc.issues, hc.events⟩)
        fun _ => .pure _) c h
  | heartbeat =>
      rw [show reported ⟨.heartbeat, body⟩ = [] from rfl, List.append_nil]
      exact Py.Preserves.bind (.lift _) (fun _ => .bind (.modify fun _ hc => ⟨hc.issues, hc.events⟩)
        fun _ => .bind (.lift _) fun _ => .bind (.lift _) fun _ =>
          .bind (.modify fun _ hc => ⟨hc.issues, hc.events⟩) fun _ => .pure _) c h
  | traces =>
      rw [show reported ⟨.traces, body⟩ = [] from rfl, List.append_nil]
      refine Py.Preserves.lift_bind (fun entries hentries => .bind (.mapEach fun raw hraw => ?_)
        fun _ => .pure _) c h
      exact timedCatalog_ingestEvent reports (hpost entries (raises_ok_iff.mp hentries) raw hraw)

theorem timedCatalog_run {posts : List Post} (hposts : ∀ post ∈ posts, Timed post)
    {reports : List (Str × Fields)} {c : Catalog} (h : TimedCatalog reports c) :
    TimedCatalog (reports ++ posts.flatMap reported) (c.run posts) := by
  induction posts generalizing reports c with
  | nil => simpa [Catalog.run] using h
  | cons post rest ih =>
      have hpost := timedCatalog_ingest (hposts post List.mem_cons_self) h
      have hrest := ih (fun other hother => hposts other (List.mem_cons_of_mem _ hother)) hpost
      simpa [Catalog.run, List.append_assoc] using hrest

end Runs

section Edges

-- Who was traced on a topic, and when: as its handler, and as the caller of
-- another service's handling.
def Catalog.handled (c : Catalog) (topic : Str) : List (Str × Json) :=
  (c.events.filter fun event => event.topic = topic).map fun event =>
    (event.service, event.startedAt)

def callerOf (owners : Dict Str Str) (event : Event) : Option (Str × Json) :=
  let caller := parentOwner owners event.parentSpanId
  if caller ≠ [] ∧ caller ≠ event.service then some (caller, event.startedAt) else none

def Catalog.called (c : Catalog) (topic : Str) : List (Str × Json) :=
  (c.events.filter fun event => event.topic = topic).filterMap (callerOf c.spanOwner)

-- Each observed name holds the textually latest start.
def Observed (given : List (Str × Json)) (observed : Dict Str Json) : Prop :=
  ∀ name, Extreme.latest.Holds (stampsAt given name) ((observed.get? name).getD .null)

theorem observed_noteObserved {given : List (Str × Json)} {observed : Dict Str Json}
    (h : Observed given observed) (name : Str) {startedAt : Json} (hstart : TimeMember startedAt) :
    ∃ observed', noteObserved observed name startedAt = .ok observed' ∧
      Observed (given ++ [(name, startedAt)]) observed' := by
  have hcurrent := h name
  have hnote : ∃ observed', noteObserved observed name startedAt = .ok observed' ∧
      ∀ other, (observed'.get? other).getD .null =
        if name = other then seenAfter Json.max ((observed.get? name).getD .null) startedAt
        else (observed.get? other).getD .null := by
    unfold noteObserved
    obtain rfl | ⟨stamp, t, rfl, ht⟩ := hstart
    · cases hget : observed.get? name with
      | some current =>
          refine ⟨observed, rfl, fun other => ?_⟩
          by_cases hother : name = other
          · subst hother
            simp [hget, seenAfter]
          · simp [hother]
      | none =>
          refine ⟨observed.set name .null, rfl, fun other => ?_⟩
          rw [Dict.get?_set]
          by_cases hother : name = other <;> simp [hother, seenAfter]
    · have hstamp := Rfc3339.ne_nil_of_instant ht
      by_cases hempty : stampsAt given name = []
      · have hnull := hcurrent.1 hempty
        refine ⟨observed.set name (.str stamp), ?_, fun other => ?_⟩
        · simp [hnull, Json.truthy, hstamp, bind, Except.bind, pure, Except.pure]
        · rw [Dict.get?_set]
          by_cases hother : name = other
          · subst hother
            simp [hnull, seenAfter, Json.orElse, Json.truthy, Json.max, Json.lt, bind, Except.bind, pure,
              Except.pure, Except.toOption]
          · simp [hother]
      · obtain ⟨kept, hkept, hne, -⟩ := hcurrent.2 hempty
        have hheld : observed.get? name = some (.str kept) := by
          cases hget : observed.get? name with
          | none => simp [hget] at hkept
          | some current => simpa [hget] using hkept
        have hmax : seenAfter Json.max (.str kept) (.str stamp) =
            if kept < stamp then .str stamp else .str kept := by
          simp [seenAfter, Json.orElse, Json.truthy, hne, Json.max, Json.lt, bind, Except.bind, pure,
            Except.pure, Except.toOption]
        simp only [hheld, Option.getD_some, hmax]
        by_cases hlater : kept < stamp
        · refine ⟨observed.set name (.str stamp), ?_, fun other => ?_⟩
          · simp [Json.truthy, hstamp, Json.lt, hlater, bind, Except.bind, pure, Except.pure]
          · rw [Dict.get?_set]
            by_cases hother : name = other <;> simp [hother, hlater]
        · refine ⟨observed, ?_, fun other => ?_⟩
          · simp [Json.truthy, hstamp, Json.lt, hlater, bind, Except.bind, pure, Except.pure]
          · by_cases hother : name = other
            · subst hother
              simp [hheld, hlater]
            · simp [hother]
  obtain ⟨observed', hok, hget⟩ := hnote
  refine ⟨observed', hok, fun other => ?_⟩
  rw [hget, stampsAt_append, stampsAt_singleton]
  by_cases hother : name = other
  · subst hother
    rw [if_pos rfl, if_pos rfl]
    exact Extreme.holds_seenAfter (x := .latest) (h name) hstart
  · rw [if_neg hother, if_neg hother, List.append_nil]
    exact h other

theorem observed_foldlM {more : List (Str × Json)} (hmore : ∀ entry ∈ more, TimeMember entry.2)
    {given : List (Str × Json)} {observed : Dict Str Json} (h : Observed given observed) :
    ∃ observed', more.foldlM (fun observed entry => noteObserved observed entry.1 entry.2) observed =
        .ok observed' ∧ Observed (given ++ more) observed' := by
  induction more generalizing given observed with
  | nil => exact ⟨observed, rfl, by simpa using h⟩
  | cons entry rest ih =>
      obtain ⟨noted, hnoted, hobserved⟩ :=
        observed_noteObserved h entry.1 (hmore entry List.mem_cons_self)
      obtain ⟨observed', hrest, hall⟩ :=
        ih (fun other hother => hmore other (List.mem_cons_of_mem _ hother)) hobserved
      refine ⟨observed', ?_, by simpa using hall⟩
      rw [List.foldlM_cons, hnoted]
      exact hrest

theorem observed_empty : Observed [] Dict.empty := fun _ => Extreme.holds_nil _

-- Callers are looked up while the events are read.
def noteCaller (owners : Dict Str Str) (observed : Dict Str Json) (event : Event) :
    Except PyError (Dict Str Json) := do
  let caller ← callerName owners event.parentSpanId
  if caller ≠ [] ∧ caller ≠ event.service
  then noteObserved observed caller event.startedAt else return observed

def HashableParent (event : Event) : Prop := event.parentSpanId.truthy → event.parentSpanId.hashable

theorem noteCaller_of_hashable {event : Event} (h : HashableParent event) (owners : Dict Str Str)
    (observed : Dict Str Json) :
    noteCaller owners observed event =
      match callerOf owners event with
      | some (caller, startedAt) => noteObserved observed caller startedAt
      | none => .ok observed := by
  have hcaller : callerName owners event.parentSpanId = .ok (parentOwner owners event.parentSpanId) :=
    callerName_ok_iff.mpr ⟨h, rfl⟩
  unfold noteCaller callerOf
  rw [hcaller]
  simp only [bind, Except.bind]
  split <;> rfl

theorem foldlM_noteCaller {events : List Event} (h : ∀ event ∈ events, HashableParent event)
    (owners : Dict Str Str) (observed : Dict Str Json) :
    events.foldlM (noteCaller owners) observed =
      (events.filterMap (callerOf owners)).foldlM
        (fun observed entry => noteObserved observed entry.1 entry.2) observed := by
  induction events generalizing observed with
  | nil => rfl
  | cons event rest ih =>
      have hrest : ∀ event ∈ rest, HashableParent event := fun other hother =>
        h other (List.mem_cons_of_mem _ hother)
      rw [List.foldlM_cons, noteCaller_of_hashable (h event List.mem_cons_self)]
      cases hcall : callerOf owners event with
      | none =>
          rw [List.filterMap_cons_none hcall]
          exact ih hrest observed
      | some entry =>
          rw [List.filterMap_cons_some hcall, List.foldlM_cons]
          exact congrArg _ (funext fun noted => ih hrest noted)

theorem hashable_of_foldlM {events : List Event} {owners : Dict Str Str}
    {observed observed' : Dict Str Json}
    (h : events.foldlM (noteCaller owners) observed = .ok observed') :
    ∀ event ∈ events, HashableParent event := by
  induction events generalizing observed with
  | nil => simp
  | cons event rest ih =>
      rw [List.foldlM_cons] at h
      cases hnote : noteCaller owners observed event with
      | error error =>
          rw [hnote] at h
          cases h
      | ok noted =>
          rw [hnote] at h
          refine List.forall_mem_cons.mpr ⟨?_, ih h⟩
          cases hcaller : callerName owners event.parentSpanId with
          | error error =>
              simp only [noteCaller, hcaller, bind, Except.bind] at hnote
              cases hnote
          | ok caller => exact (callerName_ok_iff.mp hcaller).1

variable {c : Catalog} (hevents : ∀ event ∈ c.events, TimeMember event.startedAt)
include hevents

theorem observedHandlers_ok (topic : Str) :
    ∃ observed, c.observedHandlers topic = .ok observed ∧ Observed (c.handled topic) observed := by
  have htimed : ∀ entry ∈ c.handled topic, TimeMember entry.2 := by
    intro entry hentry
    obtain ⟨event, hevent, rfl⟩ := List.mem_map.mp hentry
    exact hevents event (List.mem_filter.mp hevent).1
  obtain ⟨observed, hfold, hobserved⟩ := observed_foldlM htimed observed_empty
  refine ⟨observed, ?_, hobserved⟩
  rw [Catalog.handled, List.foldlM_map] at hfold
  exact hfold

theorem observedCallers_ok {topic : Str}
    (h : ∀ event ∈ c.events, event.topic = topic → HashableParent event) :
    ∃ observed, c.observedCallers topic = .ok observed ∧ Observed (c.called topic) observed := by
  have htimed : ∀ entry ∈ c.called topic, TimeMember entry.2 := by
    intro entry hentry
    obtain ⟨event, hevent, hcall⟩ := List.mem_filterMap.mp hentry
    unfold callerOf at hcall
    dsimp only at hcall
    split at hcall
    · cases hcall
      exact hevents event (List.mem_filter.mp hevent).1
    · cases hcall
  obtain ⟨observed, hfold, hobserved⟩ := observed_foldlM htimed observed_empty
  refine ⟨observed, ?_, hobserved⟩
  rw [Catalog.called, ← foldlM_noteCaller] at hfold
  · exact hfold
  · intro event hevent
    obtain ⟨hmem, htopic⟩ := List.mem_filter.mp hevent
    exact h event hmem (by simpa using htopic)

omit hevents in
theorem hashable_of_observedCallers {topic : Str} {observed : Dict Str Json}
    (h : c.observedCallers topic = .ok observed) :
    ∀ event ∈ c.events, event.topic = topic → HashableParent event := by
  intro event hevent htopic
  have hall : ∀ event ∈ c.events.filter fun event => event.topic = topic, HashableParent event :=
    hashable_of_foldlM h
  exact hall event (List.mem_filter.mpr ⟨hevent, by simpa using htopic⟩)

end Edges

section Answers

-- When the edge of a declared name was last observed, as an answer reports it.
def lastObservedAt (answer : Fields) (side name : Str) : Json :=
  Json.getField (asObject (Json.getField (asObject (Json.getField answer side)) name)) "lastObservedAt"

theorem lastObservedAt_edgeActivity {given : List (Str × Json)} {observed : Dict Str Json}
    (h : Observed given observed) {declared : List Str} {name : Str} (hname : name ∈ declared) :
    Json.getField (asObject (Json.getField (asObject (edgeActivity observed declared)) name))
        "lastObservedAt" =
      (observed.get? name).getD .null := by
  have hentry : Json.getField (asObject (edgeActivity observed declared)) name =
      .obj (if ((observed.get? name).getD .null).truthy
        then [Json.field "lastObservedAt" ((observed.get? name).getD .null)] else []) := by
    unfold edgeActivity
    simp only [asObject]
    induction declared with
    | nil => cases hname
    | cons other rest ih =>
        rw [List.map_cons, Json.getField, Entries.get?_cons]
        by_cases hother : other = name
        · rw [if_pos hother, hother]
          rfl
        · rw [if_neg hother]
          exact ih ((List.mem_cons.mp hname).resolve_left (Ne.symm hother))
  rw [hentry]
  by_cases hempty : stampsAt given name = []
  · simp [(h name).1 hempty, Json.truthy, asObject, Json.getField]
  · obtain ⟨kept, hkept, hne, -⟩ := (h name).2 hempty
    simp [hkept, Json.truthy, hne, asObject, Json.getField, Json.field]

-- The activity members stand in an answer exactly where they were derived.
theorem activityMember_ok {key : Str} {observed : Except PyError (Dict Str Json)} {declared : List Str}
    {members : Fields} (h : activityMember key observed declared = .ok members) :
    (declared = [] ∧ members = []) ∨
      ∃ noted, observed = .ok noted ∧ members = [(key, edgeActivity noted declared)] := by
  unfold activityMember at h
  split at h
  · rename_i hempty
    cases h
    exact Or.inl ⟨hempty, rfl⟩
  · cases observed with
    | error error => cases h
    | ok noted =>
        cases h
        exact Or.inr ⟨noted, rfl, rfl⟩

theorem activityMember_ok_of {key : Str} {observed : Except PyError (Dict Str Json)}
    {declared : List Str} (h : declared ≠ [] → ∃ noted, observed = .ok noted) :
    ∃ members, activityMember key observed declared = .ok members := by
  unfold activityMember
  by_cases hempty : declared = []
  · exact ⟨[], if_pos hempty⟩
  · obtain ⟨noted, rfl⟩ := h hempty
    exact ⟨_, if_neg hempty⟩

variable [UnicodeData] {c : Catalog} {body answer : Fields} {topic : Str}
  (hbody : require body "topic" = .ok topic)
include hbody

theorem queryTopic_activity (h : c.queryTopic body = .ok answer) :
    topic ∈ c.topics ∧ ∃ providerActivity consumerActivity,
      activityMember "providerActivity" (c.observedCallers topic) (c.providersOf topic) =
          .ok providerActivity ∧
        activityMember "consumerActivity" (c.observedHandlers topic) (c.consumersOf topic) =
          .ok consumerActivity ∧
        Json.getField answer "providerActivity" = Json.getField providerActivity "providerActivity" ∧
        Json.getField answer "consumerActivity" = Json.getField consumerActivity "consumerActivity" := by
  unfold Catalog.queryTopic at h
  rw [hbody] at h
  simp only [bind, Except.bind] at h
  split at h
  · cases h
  · rename_i hknown
    cases hp : activityMember "providerActivity" (c.observedCallers topic) (c.providersOf topic) with
    | error error =>
        rw [hp] at h
        cases h
    | ok providerActivity =>
        rw [hp] at h
        cases hc : activityMember "consumerActivity" (c.observedHandlers topic)
          (c.consumersOf topic) with
        | error error =>
            rw [hc] at h
            cases h
        | ok consumerActivity =>
            rw [hc] at h
            cases h
            refine ⟨not_not.mp hknown, providerActivity, consumerActivity, rfl, rfl, ?_, ?_⟩
            · obtain ⟨-, rfl⟩ | ⟨noted, -, rfl⟩ := activityMember_ok hp <;>
                obtain ⟨-, rfl⟩ | ⟨noted', -, rfl⟩ := activityMember_ok hc <;>
                  split <;> simp [Json.getField, Json.field]
            · obtain ⟨-, rfl⟩ | ⟨noted, -, rfl⟩ := activityMember_ok hp <;>
                obtain ⟨-, rfl⟩ | ⟨noted', -, rfl⟩ := activityMember_ok hc <;>
                  split <;> simp [Json.getField, Json.field]

theorem queryTopic_ok (hknown : topic ∈ c.topics)
    (hproviders : ∃ members, activityMember "providerActivity" (c.observedCallers topic)
      (c.providersOf topic) = .ok members)
    (hconsumers : ∃ members, activityMember "consumerActivity" (c.observedHandlers topic)
      (c.consumersOf topic) = .ok members) : ∃ answer, c.queryTopic body = .ok answer := by
  obtain ⟨providerActivity, hp⟩ := hproviders
  obtain ⟨consumerActivity, hc⟩ := hconsumers
  unfold Catalog.queryTopic
  rw [hbody]
  simp only [bind, Except.bind, hp, hc, not_true_eq_false, hknown, if_false]
  exact ⟨_, rfl⟩

end Answers

section Instants

-- What no issue holds was not reported either.
theorem denotes_held_iff {x : Extreme} {key : Str} {reports : List (Str × Fields)}
    {issues : Dict Str Fields} {time : Window → Json}
    (htime : ∀ issue, time (windowOf issue) = Json.getField issue key)
    (hblank : time ⟨.null, .null⟩ = .null)
    (hheld : ∀ fingerprint, x.Holds (stampsAt (given key reports) fingerprint)
      (time ((windowsOf issues).at fingerprint))) :
    (∀ fingerprint issue, issues.get? fingerprint = some issue →
        x.Denotes (stampsAt (given key reports) fingerprint) (Json.getField issue key)) ↔
      ∀ fingerprint, x.TextAgrees (stampsAt (given key reports) fingerprint) := by
  constructor
  · intro hdenotes fingerprint
    have hfingerprint := hheld fingerprint
    rw [← Extreme.denotes_iff hfingerprint]
    cases hget : issues.get? fingerprint with
    | some issue =>
        have hissue := hdenotes fingerprint issue hget
        rwa [Windows.at, windowsOf, hget, Option.map_some, Option.getD_some, htime]
    | none =>
        rw [Windows.at, windowsOf, hget, Option.map_none, Option.getD_none, hblank] at hfingerprint ⊢
        refine ⟨fun _ => rfl, fun hne => ?_⟩
        obtain ⟨stamp, hstamp, -⟩ := hfingerprint.2 hne
        cases hstamp
  · intro hagrees fingerprint issue hget
    have hfingerprint := hheld fingerprint
    rw [Windows.at, windowsOf, hget, Option.map_some, Option.getD_some, htime] at hfingerprint
    exact (Extreme.denotes_iff hfingerprint).mpr (hagrees fingerprint)

variable [UnicodeData]

-- The topics `query_topic` answers for: a parent that no dictionary can hold
-- stops the lookup of the callers, which only a topic with providers asks for.
structure Catalog.Answers (c : Catalog) (topic : Str) : Prop where
  asked : ∃ body, require body "topic" = .ok topic
  known : topic ∈ c.topics
  parents : c.providersOf topic ≠ [] →
    ∀ event ∈ c.events, event.topic = topic → HashableParent event

-- Every reported time denotes the extreme instant of those it stands for.
structure Catalog.ReportsInstants (c : Catalog) (reports : List (Str × Fields)) : Prop where
  firstSeen : ∀ fingerprint issue, c.issues.get? fingerprint = some issue →
    Extreme.earliest.Denotes (stampsAt (given "firstSeen" reports) fingerprint)
      (Json.getField issue "firstSeen")
  lastSeen : ∀ fingerprint issue, c.issues.get? fingerprint = some issue →
    Extreme.latest.Denotes (stampsAt (given "lastSeen" reports) fingerprint)
      (Json.getField issue "lastSeen")
  consumers : ∀ body topic answer, require body "topic" = .ok topic →
    c.queryTopic body = .ok answer → ∀ name ∈ c.consumersOf topic,
      Extreme.latest.Denotes (stampsAt (c.handled topic) name)
        (lastObservedAt answer "consumerActivity" name)
  providers : ∀ body topic answer, require body "topic" = .ok topic →
    c.queryTopic body = .ok answer → ∀ name ∈ c.providersOf topic,
      Extreme.latest.Denotes (stampsAt (c.called topic) name)
        (lastObservedAt answer "providerActivity" name)

-- Text and time agree on the extreme one of the times that are compared.
structure Catalog.TextAgrees (c : Catalog) (reports : List (Str × Fields)) : Prop where
  firstSeen : ∀ fingerprint,
    Extreme.earliest.TextAgrees (stampsAt (given "firstSeen" reports) fingerprint)
  lastSeen : ∀ fingerprint,
    Extreme.latest.TextAgrees (stampsAt (given "lastSeen" reports) fingerprint)
  consumers : ∀ topic, c.Answers topic → ∀ name ∈ c.consumersOf topic,
    Extreme.latest.TextAgrees (stampsAt (c.handled topic) name)
  providers : ∀ topic, c.Answers topic → ∀ name ∈ c.providersOf topic,
    Extreme.latest.TextAgrees (stampsAt (c.called topic) name)

theorem answers_iff {c : Catalog} (hevents : ∀ event ∈ c.events, TimeMember event.startedAt)
    {topic : Str} :
    c.Answers topic ↔ ∃ body answer, require body "topic" = .ok topic ∧
      c.queryTopic body = .ok answer := by
  constructor
  · rintro ⟨⟨body, hbody⟩, hknown, hparents⟩
    obtain ⟨handlers, hhandlers, -⟩ := observedHandlers_ok hevents topic
    obtain ⟨answer, hanswer⟩ := queryTopic_ok hbody hknown
      (activityMember_ok_of fun hproviders => by
        obtain ⟨callers, hcallers, -⟩ := observedCallers_ok hevents (hparents hproviders)
        exact ⟨callers, hcallers⟩)
      (activityMember_ok_of fun _ => ⟨handlers, hhandlers⟩)
    exact ⟨body, answer, hbody, hanswer⟩
  · rintro ⟨body, answer, hbody, hanswer⟩
    obtain ⟨hknown, providerActivity, -, hproviders, -⟩ := queryTopic_activity hbody hanswer
    refine ⟨⟨body, hbody⟩, hknown, fun hne => ?_⟩
    obtain ⟨hempty, -⟩ | ⟨callers, hcallers, -⟩ := activityMember_ok hproviders
    · exact absurd hempty hne
    · exact hashable_of_observedCallers hcallers

-- The answer reports the textually latest start of each declared edge.
theorem holds_consumers {c : Catalog} (hevents : ∀ event ∈ c.events, TimeMember event.startedAt)
    {body answer : Fields} {topic name : Str} (hbody : require body "topic" = .ok topic)
    (hanswer : c.queryTopic body = .ok answer) (hname : name ∈ c.consumersOf topic) :
    Extreme.latest.Holds (stampsAt (c.handled topic) name)
      (lastObservedAt answer "consumerActivity" name) := by
  obtain ⟨-, -, consumerActivity, -, hconsumers, -, hmember⟩ := queryTopic_activity hbody hanswer
  obtain ⟨observed, hok, hobserved⟩ := observedHandlers_ok hevents topic
  obtain ⟨hempty, -⟩ | ⟨noted, hnoted, rfl⟩ := activityMember_ok hconsumers
  · rw [hempty] at hname
    cases hname
  · rw [hok] at hnoted
    cases hnoted
    have hfield : Json.getField answer "consumerActivity" = edgeActivity observed (c.consumersOf topic) := by
      simpa [Json.getField] using hmember
    rw [lastObservedAt, hfield, lastObservedAt_edgeActivity hobserved hname]
    exact hobserved name

theorem holds_providers {c : Catalog} (hevents : ∀ event ∈ c.events, TimeMember event.startedAt)
    {body answer : Fields} {topic name : Str} (hbody : require body "topic" = .ok topic)
    (hanswer : c.queryTopic body = .ok answer) (hname : name ∈ c.providersOf topic) :
    Extreme.latest.Holds (stampsAt (c.called topic) name)
      (lastObservedAt answer "providerActivity" name) := by
  obtain ⟨-, providerActivity, -, hproviders, -, hmember, -⟩ := queryTopic_activity hbody hanswer
  obtain ⟨hempty, -⟩ | ⟨noted, hnoted, rfl⟩ := activityMember_ok hproviders
  · rw [hempty] at hname
    cases hname
  · obtain ⟨observed, hok, hobserved⟩ :=
      observedCallers_ok hevents (hashable_of_observedCallers hnoted)
    rw [hok] at hnoted
    cases hnoted
    have hfield : Json.getField answer "providerActivity" = edgeActivity noted (c.providersOf topic) := by
      simpa [Json.getField] using hmember
    rw [lastObservedAt, hfield, lastObservedAt_edgeActivity hobserved hname]
    exact hobserved name

theorem reportsInstants_iff {c : Catalog} {reports : List (Str × Fields)}
    (h : TimedCatalog reports c) : c.ReportsInstants reports ↔ c.TextAgrees reports := by
  have hfirst := denotes_held_iff (fun _ => rfl) rfl h.issues.times.firstSeen
  have hlast := denotes_held_iff (fun _ => rfl) rfl h.issues.times.lastSeen
  constructor
  · intro hreports
    refine ⟨hfirst.mp hreports.firstSeen, hlast.mp hreports.lastSeen, ?_, ?_⟩
    · intro topic hanswers name hname
      obtain ⟨body, answer, hbody, hanswer⟩ := (answers_iff h.events).mp hanswers
      exact (Extreme.denotes_iff (holds_consumers h.events hbody hanswer hname)).mp
        (hreports.consumers body topic answer hbody hanswer name hname)
    · intro topic hanswers name hname
      obtain ⟨body, answer, hbody, hanswer⟩ := (answers_iff h.events).mp hanswers
      exact (Extreme.denotes_iff (holds_providers h.events hbody hanswer hname)).mp
        (hreports.providers body topic answer hbody hanswer name hname)
  · intro hagrees
    refine ⟨hfirst.mpr hagrees.firstSeen, hlast.mpr hagrees.lastSeen, ?_, ?_⟩
    · intro body topic answer hbody hanswer name hname
      have hanswers := (answers_iff h.events).mpr ⟨body, answer, hbody, hanswer⟩
      exact (Extreme.denotes_iff (holds_consumers h.events hbody hanswer hname)).mpr
        (hagrees.consumers topic hanswers name hname)
    · intro body topic answer hbody hanswer name hname
      have hanswers := (answers_iff h.events).mpr ⟨body, answer, hbody, hanswer⟩
      exact (Extreme.denotes_iff (holds_providers h.events hbody hanswer hname)).mpr
        (hagrees.providers topic hanswers name hname)

-- In every run over readable times.
theorem run_reportsInstants_iff (posts : List Post) (h : ∀ post ∈ posts, Timed post) :
    (Collector.empty.run posts).catalog.ReportsInstants (posts.flatMap reported) ↔
      (Collector.empty.run posts).catalog.TextAgrees (posts.flatMap reported) := by
  rw [Collector.run_catalog]
  have htimed := timedCatalog_run h timedCatalog_empty
  rw [List.nil_append] at htimed
  exact reportsInstants_iff htimed

end Instants

section Example

-- Two sightings of one issue, the earlier one with fewer digits.
def sightings : Post :=
  ⟨.issues, [Json.field "service" (.str "s"), Json.field "issues" (.arr
    [.obj [Json.field "fingerprint" (.str "f"),
        Json.field "firstSeen" (.str "2026-01-01T09:00:00.005Z")],
      .obj [Json.field "fingerprint" (.str "f"),
        Json.field "firstSeen" (.str "2026-01-01T09:00:00Z")]])]⟩

theorem timed_sightings :
    letI := UnicodeData.ascii
    ∀ post ∈ [sightings], Timed post := by
  let _ := UnicodeData.ascii
  intro post hpost
  rw [List.mem_singleton.mp hpost]
  intro entries hentries raw hraw
  cases hentries
  have hstamp {stamp : Str} {t : Int} (ht : Rfc3339.instant stamp = some t) : TimeMember (.str stamp) :=
    Or.inr ⟨stamp, t, rfl, ht⟩
  rcases List.mem_cons.mp hraw with rfl | hraw
  · exact ⟨hstamp (t := 1767258000005000) (by decide +kernel), Or.inl rfl⟩
  · rw [List.mem_singleton.mp hraw]
    exact ⟨hstamp (t := 1767258000000000) (by decide +kernel), Or.inl rfl⟩

theorem sightings_reportsInstants_iff :
    letI := UnicodeData.ascii
    (Collector.empty.run [sightings]).catalog.ReportsInstants ([sightings].flatMap reported) ↔
      (Collector.empty.run [sightings]).catalog.TextAgrees ([sightings].flatMap reported) :=
  letI := UnicodeData.ascii
  run_reportsInstants_iff [sightings] timed_sightings

-- `.` sorts before `Z`.
theorem sightings_not_reportsInstants :
    letI := UnicodeData.ascii
    ¬(Collector.empty.run [sightings]).catalog.ReportsInstants ([sightings].flatMap reported) := by
  let _ := UnicodeData.ascii
  intro h
  have hheld : ((Collector.empty.run [sightings]).catalog.issues.get? "f").map
      (fun issue => Json.getField issue "firstSeen") = some (.str "2026-01-01T09:00:00.005Z") := by
    decide +kernel
  have hgiven : stampsAt (given "firstSeen" ([sightings].flatMap reported)) "f" =
      ["2026-01-01T09:00:00.005Z", "2026-01-01T09:00:00Z"] := by decide +kernel
  obtain ⟨issue, hget, hseen⟩ := Option.map_eq_some_iff.mp hheld
  have hdenotes := h.firstSeen "f" issue hget
  rw [hgiven, hseen] at hdenotes
  obtain ⟨stamp, t, hstamp, ht, hleast⟩ := hdenotes.2 (by simp)
  cases hstamp
  have hearlier : t ≤ 1767258000000000 :=
    hleast.2 ⟨"2026-01-01T09:00:00Z", by simp, by decide +kernel⟩
  have hread : Rfc3339.instant ("2026-01-01T09:00:00.005Z" : Str) = some 1767258000005000 := by
    decide +kernel
  rw [hread] at ht
  cases ht
  omega

end Example

end Benzene.Mesh
