import Benzene.Data.WellFormed
import Benzene.Mesh.Merge

namespace Benzene.Mesh

open Benzene.Data Benzene.Data.Json Benzene.Results

section Schemas

theorem wellFormed_resolveSchema {schemas : Fields} (hschemas : WellFormedObject schemas) {schema : Json}
    (h : schema.WellFormed) : (resolveSchema schema schemas).WellFormed :=
  hereditary_resolveSchema hereditary_wellFormed hschemas h

theorem wellFormed_asObject {j : Json} (h : j.WellFormed) : WellFormedObject (asObject j) :=
  hereditary_asObject hereditary_wellFormed h

theorem wellFormed_schemaCatalogue {document : Fields} (h : WellFormedObject document) :
    WellFormedObject (schemaCatalogue document) :=
  hereditary_schemaCatalogue hereditary_wellFormed h

variable [UnicodeData]

theorem wellFormed_topicSpec {entry catalogue : Fields} (hentry : WellFormedObject entry)
    (hcatalogue : WellFormedObject catalogue) : WellFormedObject (topicSpec entry catalogue) := by
  have hschema (member : Str) : (resolveSchema (getField entry member) catalogue).WellFormed :=
    wellFormed_resolveSchema hcatalogue (wellFormed_getField hentry member)
  have hversion := joined_text (wellFormed_getField hentry "version")
  have hall : WellFormedObject [Json.field "version" (.str (getField entry "version").text),
      Json.field "requestSchema" (resolveSchema (getField entry "request") catalogue),
      Json.field "responseSchema" (resolveSchema (getField entry "response") catalogue)] := by
    rw [wellFormedObject_iff]
    constructor
    · simp [Json.field]
    · simp only [List.mem_cons, List.not_mem_nil, or_false]
      rintro field (rfl | rfl | rfl)
      · exact ⟨Str.joined_ofString _, hversion⟩
      · exact ⟨Str.joined_ofString _, hschema _⟩
      · exact ⟨Str.joined_ofString _, hschema _⟩
  have hpiece (p : Prop) [Decidable p] (field : Str × Json) :
      List.Sublist (if p then [field] else []) [field] := by
    split <;> simp
  exact wellFormedObject_sublist hall (((hpiece _ _).append (hpiece _ _)).append (hpiece _ _))

theorem wellFormed_specEntries {document : Fields} (h : WellFormedObject document) (member : Member) :
    ∀ entry ∈ specEntries document member, WellFormedObject entry :=
  hereditary_specEntries hereditary_wellFormed h member

theorem joined_entryTopic {entry : Fields} (h : WellFormedObject entry) : (entryTopic entry).Joined :=
  joined_text (wellFormed_getField h _)

theorem joined_specTopicIds {document : Fields} (h : WellFormedObject document) (members : List Member) :
    ∀ topic ∈ specTopicIds document members, topic.Joined := by
  intro topic htopic
  obtain ⟨member, -, entry, hentry, rfl⟩ := mem_specTopicIds.mp htopic
  exact joined_entryTopic (wellFormed_specEntries h member entry hentry)

end Schemas

section Errors

def IssueError.Joined (entry : IssueError) : Prop :=
  (∀ text, entry.field = some text → text.Joined) ∧ ∀ text, entry.code = some text → text.Joined

theorem joined_presentText {value : Option Str} (h : ∀ text, value = some text → text.Joined) :
    ∀ text, presentText value = some text → text.Joined := by
  intro text htext
  obtain ⟨hvalue, -⟩ := Option.filter_eq_some_iff.mp htext
  exact h text hvalue

theorem joined_optionalText {j : Json} (h : j.WellFormed) {value : Option Str}
    (hvalue : optionalText j = some value) : ∀ text, value = some text → text.Joined := by
  cases j with
  | null =>
      cases hvalue
      intro text htext
      cases htext
  | str s =>
      cases hvalue
      exact joined_presentText fun text htext => by
        cases htext
        exact h
  | _ => cases hvalue

theorem joined_decodeIssueErrors {j : Json} (h : j.WellFormed) :
    ∀ entry ∈ decodeIssueErrors j, entry.Joined := by
  intro entry hentry
  cases j with
  | arr items =>
      obtain ⟨raw, hraw, hdecode⟩ := List.mem_filterMap.mp hentry
      have hitem := wellFormed_arr.mp h raw hraw
      cases raw with
      | obj item =>
          simp only [decodeIssueError] at hdecode
          split at hdecode
          · split at hdecode
            · cases hdecode
            · split at hdecode
              · rename_i field code hfield hcode
                split at hdecode
                · cases hdecode
                · cases hdecode
                  exact ⟨joined_optionalText (wellFormed_getField hitem _) hfield,
                    joined_optionalText (wellFormed_getField hitem _) hcode⟩
              · cases hdecode
          · cases hdecode
      | _ => cases hdecode
  | _ => cases hentry

theorem joined_mergeIssueErrors {existing delta : List IssueError}
    (hexisting : ∀ entry ∈ existing, entry.Joined) (hdelta : ∀ entry ∈ delta, entry.Joined) :
    ∀ entry ∈ mergeIssueErrors existing delta, entry.Joined := by
  have hfold (entries : List IssueError) (hentries : ∀ entry ∈ entries, entry.Joined)
      (counts : List ((Option Str × Option Str) × Int))
      (hcounts : ∀ count ∈ counts, IssueError.Joined ⟨count.1.1, count.1.2, count.2⟩) :
      ∀ count ∈ entries.foldl addIssueError counts,
        IssueError.Joined ⟨count.1.1, count.1.2, count.2⟩ := by
    induction entries generalizing counts with
    | nil => exact hcounts
    | cons entry rest ih =>
        refine ih (fun other hother => hentries other (List.mem_cons_of_mem _ hother)) _ ?_
        obtain ⟨hfield, hcode⟩ := hentries entry List.mem_cons_self
        unfold addIssueError
        dsimp only
        split
        · exact hcounts
        · intro count hcount
          rcases Entries.mem_set hcount with rfl | hold
          · exact ⟨joined_presentText hfield, joined_presentText hcode⟩
          · exact hcounts count hold
  intro entry hentry
  have hmem := List.mem_of_mem_take hentry
  rw [List.mem_insertionSort] at hmem
  obtain ⟨count, hcount, rfl⟩ := List.mem_map.mp hmem
  refine hfold _ (fun other hother => ?_) [] (by simp) count hcount
  rcases List.mem_append.mp hother with h | h
  · exact hexisting other h
  · exact hdelta other h

theorem wellFormed_optionalField {key : Str} (hkey : key.Joined) {value : Option Str}
    (h : ∀ text, value = some text → text.Joined) :
    ∀ field ∈ optionalField key value, field.1.Joined ∧ field.2.WellFormed := by
  intro field hfield
  cases value with
  | none => cases hfield
  | some text =>
      rw [List.mem_singleton.mp hfield]
      exact ⟨hkey, h text rfl⟩

theorem wellFormed_issueError {entry : IssueError} (h : entry.Joined) : entry.toPayload.WellFormed := by
  refine wellFormedObject_iff.mpr ⟨?_, fun field hfield => ?_⟩
  · unfold optionalField
    cases entry.field <;> cases entry.code <;> simp [Json.field]
  · rcases List.mem_append.mp hfield with hfield | hfield
    · rcases List.mem_append.mp hfield with hfield | hfield
      · exact wellFormed_optionalField (Str.joined_ofString _) h.1 field hfield
      · exact wellFormed_optionalField (Str.joined_ofString _) h.2 field hfield
    · rw [List.mem_singleton.mp hfield]
      exact ⟨Str.joined_ofString _, trivial⟩

theorem wellFormed_mergeErrorDetail {merged : Fields} (h : WellFormedObject merged) {incoming : Json}
    (hincoming : incoming.WellFormed) : WellFormedObject (mergeErrorDetail merged incoming) := by
  unfold mergeErrorDetail
  dsimp only
  split
  · exact wellFormedObject_erase h _
  · refine wellFormedObject_set h (Str.joined_ofString _) (wellFormed_arr.mpr fun item hitem => ?_)
    obtain ⟨entry, hentry, rfl⟩ := List.mem_map.mp hitem
    exact wellFormed_issueError (joined_mergeIssueErrors
      (joined_decodeIssueErrors (wellFormed_getField h _)) (joined_decodeIssueErrors hincoming)
      entry hentry)

end Errors

section Issues

def WellFormedIssues (issues : Dict Str Fields) : Prop :=
  ∀ entry ∈ issues.entries, entry.1.Joined ∧ WellFormedObject entry.2

theorem wellFormedIssues_set {issues : Dict Str Fields} (h : WellFormedIssues issues) {fingerprint : Str}
    (hfingerprint : fingerprint.Joined) {issue : Fields} (hissue : WellFormedObject issue) :
    WellFormedIssues (issues.set fingerprint issue) := by
  intro entry hentry
  rcases Entries.mem_set hentry with rfl | hold
  · exact ⟨hfingerprint, hissue⟩
  · exact h entry hold

theorem wellFormed_newest {exemplars : List Json} (h : ∀ item ∈ exemplars, item.WellFormed) :
    (Json.arr (newest exemplars)).WellFormed :=
  wellFormed_arr.mpr fun item hitem => h item (List.mem_of_mem_drop hitem)

theorem wellFormed_overwrite {existing issue : Fields} (hexisting : WellFormedObject existing)
    (hissue : WellFormedObject issue) : WellFormedObject (overwrite existing issue) :=
  wellFormedObject_update hexisting fun field hfield =>
    (wellFormedObject_iff.mp hissue).2 field (List.mem_of_mem_filter hfield)

theorem min_cases {a b c : Json} (h : Json.min a b = .ok c) : c = a ∨ c = b := by
  unfold Json.min at h
  cases hless : Json.lt b a with
  | error error =>
      rw [hless] at h
      cases h
  | ok less =>
      rw [hless] at h
      cases less <;> cases h <;> simp

theorem max_cases {a b c : Json} (h : Json.max a b = .ok c) : c = a ∨ c = b := by
  unfold Json.max at h
  cases hless : Json.lt a b with
  | error error =>
      rw [hless] at h
      cases h
  | ok less =>
      rw [hless] at h
      cases less <;> cases h <;> simp

theorem wellFormed_widen {pick : Json → Json → Except PyError Json}
    (hpick : ∀ a b c, pick a b = .ok c → c = a ∨ c = b) {key : Str} (hkey : key.Joined) {issue : Fields}
    (hissue : WellFormedObject issue) : Py.Preserves WellFormedObject (widen pick key issue) := by
  intro existing hexisting
  have hincoming := wellFormed_getField hissue key
  have hheld : (Json.orElse (getField existing key) (getField issue key)).WellFormed := by
    unfold Json.orElse
    split
    · exact wellFormed_getField hexisting key
    · exact hincoming
  unfold widen
  split
  · exact hexisting
  · cases hvalue : pick (Json.orElse (getField existing key) (getField issue key)) (getField issue key) with
    | error error => exact hexisting
    | ok value =>
        refine wellFormedObject_set hexisting hkey ?_
        rcases hpick _ _ _ hvalue with rfl | rfl
        · exact hheld
        · exact hincoming

theorem wellFormed_incomingExemplars {issue : Fields} (h : WellFormedObject issue) {exemplars : List Json}
    (hex : incomingExemplars issue = .ok exemplars) : ∀ item ∈ exemplars, item.WellFormed := by
  refine wellFormed_iter ?_ hex
  cases hget : Entries.get? ("exemplarTraceIds" : Str) issue with
  | none => exact wellFormed_arr.mpr (by simp)
  | some value => exact wellFormed_get? h hget

-- The issues as JSON carries them, with what every merge relies on.
def SoundIssues (issues : Dict Str Fields) : Prop := StoredIssues issues ∧ WellFormedIssues issues

theorem wellFormed_aggregate {base issue : Fields} (hbase : WellFormedObject base)
    (hissue : WellFormedObject issue) (count : Int) {exemplars : List Json}
    (hexemplars : ∀ item ∈ exemplars, item.WellFormed) :
    WellFormedObject (aggregate base issue count exemplars) := by
  refine wellFormed_mergeErrorDetail (wellFormedObject_set (wellFormedObject_set hbase
    (Str.joined_ofString _) (by trivial)) (Str.joined_ofString _) (wellFormed_newest hexemplars))
    (wellFormed_getField hissue _)

variable [UnicodeData]

theorem wellFormed_newIssue {issue merged : Fields} (hissue : WellFormedObject issue)
    {exemplars : List Json} (hexemplars : ∀ item ∈ exemplars, item.WellFormed)
    (h : newIssue issue exemplars = .ok merged) : WellFormedObject merged := by
  rw [newIssue_eq] at h
  cases hcount : safeInt (countOf issue) with
  | error error =>
      rw [hcount] at h
      cases h
  | ok count =>
      rw [hcount] at h
      cases h
      exact wellFormed_mergeErrorDetail (wellFormedObject_erase (wellFormedObject_set
        (wellFormedObject_set hissue (Str.joined_ofString _) (by trivial)) (Str.joined_ofString _)
        (wellFormed_newest hexemplars)) _) (wellFormed_getField hissue _)

theorem wellFormed_mergeExisting {issue existing : Fields} (hissue : WellFormedObject issue)
    (hexisting : WellFormedObject existing) (hstored : StoredIssue existing) {exemplars : List Json}
    (hexemplars : ∀ item ∈ exemplars, item.WellFormed) :
    WellFormedObject (mergeExisting issue exemplars existing).2 := by
  obtain ⟨⟨n, hn⟩, ⟨held, hheld⟩⟩ := hstored
  have hwritten := wellFormed_overwrite hexisting hissue
  have hheldItems := wellFormed_arr.mp (wellFormed_get? hexisting hheld)
  rw [mergeExisting_eq hn hheld]
  cases safeInt (countOf issue) with
  | error error => exact hwritten
  | ok delta =>
      have hcombined : ∀ item ∈ combinedExemplars held exemplars, item.WellFormed := by
        intro item hitem
        rcases List.mem_append.mp hitem with h | h
        · exact hheldItems item h
        · exact hexemplars item (List.mem_of_mem_filter h)
      have hwindow : Py.Preserves WellFormedObject (widenWindow issue) :=
        .bind (wellFormed_widen (fun _ _ _ => min_cases) (Str.joined_ofString _) hissue) fun _ =>
          wellFormed_widen (fun _ _ _ => max_cases) (Str.joined_ofString _) hissue
      exact hwindow _ (wellFormed_aggregate hwritten hissue _ hcombined)

theorem soundIssues_mergeIssue {fingerprint : Str} (hfingerprint : fingerprint.Joined) {issue : Fields}
    (hissue : WellFormedObject issue) : Py.Preserves SoundIssues (mergeIssue fingerprint issue) := by
  intro issues hissues
  obtain ⟨hstored, hformed⟩ := hissues
  refine ⟨mergeIssue_storedIssues fingerprint issue issues hstored, ?_⟩
  cases hex : incomingExemplars issue with
  | error error =>
      rw [mergeIssue_malformed hex]
      exact hformed
  | ok exemplars =>
      have hexemplars := wellFormed_incomingExemplars hissue hex
      cases hget : issues.get? fingerprint with
      | none =>
          rw [mergeIssue_none hex hget]
          cases hnew : newIssue issue exemplars with
          | error error => exact hformed
          | ok merged =>
              exact wellFormedIssues_set hformed hfingerprint (wellFormed_newIssue hissue hexemplars hnew)
      | some existing =>
          rw [mergeIssue_some hex hget]
          have hexisting := (hformed _ ((Dict.mem_entries_iff _ _ _).mpr hget)).2
          exact wellFormedIssues_set hformed hfingerprint
            (wellFormed_mergeExisting hissue hexisting (hstored _ _ hget) hexemplars)

end Issues

section Catalogs

structure Service.Sound (record : Service) : Prop where
  name : record.name.Joined
  registrationHash : (optionalJson record.registrationHash).WellFormed
  previousRegistrationHash : (optionalJson record.previousRegistrationHash).WellFormed
  consumed : (strings record.consumed).WellFormed
  produced : (strings record.produced).WellFormed
  known : (strings record.known).WellFormed
  document : WellFormedObject record.document
  topicSpecs : (objects record.topicSpecs).WellFormed
  previousTopicSpecs : (objects record.previousTopicSpecs).WellFormed
  instances : ∀ entry ∈ record.instances.entries, (entry.2.snapshot entry.1).WellFormed

theorem wellFormed_strings {texts : List Str} :
    (strings texts).WellFormed ↔ ∀ text ∈ texts, text.Joined := by
  rw [strings, wellFormed_arr]
  simp [WellFormed]

theorem wellFormed_objects {entries : Dict Str Fields} :
    (objects entries).WellFormed ↔ ∀ entry ∈ entries.entries, entry.1.Joined ∧ WellFormedObject entry.2 := by
  have hobject : WellFormedObject (Entries.mapValues Json.obj entries.entries) ↔ _ := wellFormedObject_iff
  rw [Entries.keys_mapValues] at hobject
  refine hobject.trans ⟨fun h entry hentry => ?_, fun h => ⟨entries.nodup, fun field hfield => ?_⟩⟩
  · exact h.2 (entry.1, .obj entry.2) (List.mem_map.mpr ⟨entry, hentry, rfl⟩)
  · obtain ⟨entry, hentry, rfl⟩ := List.mem_map.mp hfield
    exact h entry hentry

theorem sound_blank {name : Str} (h : name.Joined) : Service.Sound { name := name } where
  name := h
  registrationHash := trivial
  previousRegistrationHash := trivial
  consumed := wellFormed_strings.mpr (by simp)
  produced := wellFormed_strings.mpr (by simp)
  known := wellFormed_strings.mpr (by simp)
  document := wellFormedObject_nil
  topicSpecs := wellFormed_objects.mpr (by simp)
  previousTopicSpecs := wellFormed_objects.mpr (by simp)
  instances := by simp

theorem wellFormed_service {record : Service} (h : record.Sound) : record.snapshot.WellFormed := by
  refine wellFormedObject_iff.mpr ⟨by simp [Json.field], ?_⟩
  have hinstances : (Json.arr (record.instances.entries.map fun entry =>
      entry.2.snapshot entry.1)).WellFormed := by
    refine wellFormed_arr.mpr fun item hitem => ?_
    obtain ⟨entry, hentry, rfl⟩ := List.mem_map.mp hitem
    exact h.instances entry hentry
  simp only [List.forall_mem_cons, List.not_mem_nil, false_implies, implies_true, and_true,
    Str.joined_ofString, true_and]
  exact ⟨h.name, trivial, h.registrationHash, h.previousRegistrationHash, h.consumed, h.produced,
    h.known, h.document, h.topicSpecs, h.previousTopicSpecs, trivial, hinstances⟩

-- An event whose duration is a number as the collector stores it.
def Event.Timed (event : Event) : Prop := ∃ d : Decimal, event.durationMs = .finite d ∧ 0 ≤ d.mantissa

-- What every reachable catalog keeps: JSON carries all it holds, and its span
-- index is that of its events.
structure Catalog.Sound (c : Catalog) : Prop where
  services : ∀ entry ∈ c.services.entries, entry.2.Sound
  topics : ∀ topic ∈ c.topics, topic.Joined
  everConsumed : ∀ topic ∈ c.everConsumed, topic.Joined
  events : ∀ event ∈ c.events, event.Timed ∧ event.snapshot.WellFormed
  spans : c.spanOwner = Dict.ofEntries (c.events.map fun event => (event.spanId, event.service))
  issues : SoundIssues c.issues

theorem sound_empty : Catalog.empty.Sound where
  services := by simp [Catalog.empty]
  topics := by simp [Catalog.empty]
  everConsumed := by simp [Catalog.empty]
  events := by simp [Catalog.empty]
  spans := rfl
  issues := ⟨storedIssues_empty, by simp [WellFormedIssues, Catalog.empty]⟩

theorem wellFormed_catalog {c : Catalog} (h : c.Sound) : WellFormedObject c.snapshot := by
  refine wellFormedObject_iff.mpr ⟨by simp [Catalog.snapshot, Json.field], ?_⟩
  have hservices : (Json.arr (c.services.values.map Service.snapshot)).WellFormed := by
    refine wellFormed_arr.mpr fun item hitem => ?_
    obtain ⟨record, hrecord, rfl⟩ := List.mem_map.mp hitem
    obtain ⟨entry, hentry, rfl⟩ := List.mem_map.mp hrecord
    exact wellFormed_service (h.services entry hentry)
  have hevents : (Json.arr (c.events.map Event.snapshot)).WellFormed := by
    refine wellFormed_arr.mpr fun item hitem => ?_
    obtain ⟨event, hevent, rfl⟩ := List.mem_map.mp hitem
    exact (h.events event hevent).2
  simp only [Catalog.snapshot, List.forall_mem_cons, List.not_mem_nil, false_implies, implies_true,
    and_true, Str.joined_ofString, true_and]
  exact ⟨trivial, hservices,
    wellFormed_strings.mpr fun topic htopic => h.topics topic ((Finset.mem_sort _).mp htopic),
    wellFormed_strings.mpr fun topic htopic => h.everConsumed topic ((Finset.mem_sort _).mp htopic),
    hevents, wellFormed_objects.mpr h.issues.2⟩

theorem sound_serviceOrNew {c : Catalog} (h : c.Sound) {name : Str} (hname : name.Joined) :
    (c.serviceOrNew name).Sound := by
  unfold Catalog.serviceOrNew
  cases hget : c.services.get? name with
  | none => exact sound_blank hname
  | some record => exact h.services _ ((Dict.mem_entries_iff _ _ _).mpr hget)

theorem sound_setService {c : Catalog} (h : c.Sound) (name : Str) {record : Service}
    (hrecord : record.Sound) : (c.setService name record).Sound where
  services := by
    intro entry hentry
    rcases Entries.mem_set hentry with rfl | hold
    · exact hrecord
    · exact h.services entry hold
  topics := h.topics
  everConsumed := h.everConsumed
  events := h.events
  spans := h.spans
  issues := h.issues

end Catalogs

section Durations

-- `float(n)` of a number in range.
theorem ofDecimal_ofParts {n : Int} (h : n.natAbs < PyFloat.overflowBound) :
    PyFloat.ofDecimal (Decimal.ofParts n 0) = .finite (PyFloat.nearest (Decimal.ofParts n 0)) := by
  rw [PyFloat.ofDecimal, PyFloat.overflows_ofParts h]
  rfl

theorem mantissa_ofParts {n : Int} (h : 0 ≤ n) : 0 ≤ (Decimal.ofParts n 0).mantissa := by
  rw [← Decimal.toRat_nonneg_iff, Decimal.toRat_ofParts, zpow_zero, mul_one]
  exact_mod_cast h

-- What is read as a duration is a finite, non-negative number.
theorem durationMs_nonneg {value : Json} {duration : PyFloat} (hread : durationMs value = .ok duration) :
    ∃ d : Decimal, duration = .finite d ∧ 0 ≤ d.mantissa := by
  have hzero : ∃ d : Decimal, PyFloat.finite (Decimal.ofParts 0 0) = .finite d ∧ 0 ≤ d.mantissa :=
    ⟨_, rfl, le_rfl⟩
  cases value with
  | int n =>
      simp only [durationMs, PyFloat.ofInt] at hread
      split at hread
      · cases hread
      · rename_i hsmall
        simp only [bind, Except.bind, pure, Except.pure, Except.ok.injEq] at hread
        rw [← hread]
        split
        · exact ⟨_, ofDecimal_ofParts (by omega), PyFloat.mantissa_nearest (mantissa_ofParts ‹_›)⟩
        · exact hzero
  | float x =>
      cases x with
      | finite d =>
          cases hread
          by_cases hpositive : 0 ≤ d.mantissa
          · rw [if_pos hpositive]
            exact ⟨d, rfl, hpositive⟩
          · rw [if_neg hpositive]
            exact hzero
      | _ =>
          cases hread
          exact hzero
  | _ =>
      cases hread
      exact hzero

-- It can be written and read again.
theorem wellFormed_durationMs {value : Json} (h : value.WellFormed) {duration : PyFloat}
    (hread : durationMs value = .ok duration) : (Json.float duration).WellFormed := by
  have hzero : (Json.float (.finite (Decimal.ofParts 0 0))).WellFormed := by
    show PyFloat.ofDecimal _ = .finite _
    decide +kernel
  cases value with
  | int n =>
      simp only [durationMs, PyFloat.ofInt] at hread
      split at hread
      · cases hread
      · rename_i hsmall
        simp only [bind, Except.bind, pure, Except.pure, Except.ok.injEq] at hread
        rw [← hread]
        split
        · rw [ofDecimal_ofParts (by omega)]
          exact PyFloat.ofDecimal_of_finite (ofDecimal_ofParts (by omega))
        · exact hzero
  | float x =>
      cases x with
      | finite d =>
          cases hread
          split
          · exact h
          · exact hzero
      | _ =>
          cases hread
          exact hzero
  | _ =>
      cases hread
      exact hzero

end Durations

section Ingests

theorem wellFormed_optionalText {p : Prop} [Decidable p] {text : Str} (h : text.Joined) :
    (optionalJson (if p then some text else none)).WellFormed := by
  split
  · exact h
  · trivial

theorem wellFormed_get {value : Json} (h : value.WellFormed) {key : Str} {member : Json}
    (hget : value.get key = .ok member) : member.WellFormed := by
  cases value with
  | obj fields =>
      cases hget
      exact wellFormed_getField h key
  | _ => cases hget

theorem wellFormed_orElse {x y : Json} (hx : x.WellFormed) (hy : y.WellFormed) :
    (Json.orElse x y).WellFormed := by
  unfold Json.orElse
  split
  · exact hx
  · exact hy

theorem sound_updateService {name : Str} (hname : name.Joined) {f : Service → Service}
    (hf : ∀ record, record.Sound → (f record).Sound) : Py.Preserves Catalog.Sound (updateService name f) :=
  .modify fun _ hc => sound_setService hc name (hf _ (sound_serviceOrNew hc hname))

theorem wellFormed_instance {instanceId : Str} (hid : instanceId.Joined) {record : Instance}
    (hhash : record.registrationHash.WellFormed) (hversion : (optionalJson record.serviceVersion).WellFormed)
    (hchecks : WellFormedObject record.healthChecks) : (record.snapshot instanceId).WellFormed := by
  refine wellFormedObject_iff.mpr ⟨by simp [Json.field], ?_⟩
  simp only [List.forall_mem_cons, List.not_mem_nil, false_implies, implies_true, and_true,
    Str.joined_ofString, true_and]
  exact ⟨hid, trivial, hhash, hversion, hchecks⟩

theorem sound_observe {c : Catalog} (h : c.Sound) {event : Event} (htimed : event.Timed)
    (hevent : event.snapshot.WellFormed) (hservice : event.service.Joined) (htopic : event.topic.Joined) :
    (c.observe event).Sound := by
  have hset := sound_setService h event.service (sound_serviceOrNew h hservice)
  refine ⟨hset.services, fun topic hmem => ?_, h.everConsumed, fun other hother => ?_, ?_, h.issues⟩
  · rcases Finset.mem_insert.mp hmem with rfl | hold
    · exact htopic
    · exact h.topics topic hold
  · rcases List.mem_append.mp hother with hold | hnew
    · exact h.events other hold
    · rw [List.mem_singleton.mp hnew]
      exact ⟨htimed, hevent⟩
  · simp only [Catalog.observe, h.spans, List.map_append, List.map_cons, List.map_nil]
    exact (Dict.ofEntries_append_singleton _ _ _).symm

theorem joined_driftFingerprint {name topic fingerprint : Str}
    (h : driftFingerprint name topic = .ok fingerprint) : fingerprint.Joined := by
  unfold driftFingerprint issueFingerprint at h
  split at h
  · cases h
    exact (Str.encodable_flatMap fun _ _ => Str.encodable_hexFixed _ _).joined
  · cases h

theorem wellFormed_driftIssue {name topic traceId fingerprint : Str} (hname : name.Joined)
    (htopic : topic.Joined) (htrace : traceId.Joined) (hfingerprint : fingerprint.Joined) :
    WellFormedObject (driftIssue name topic traceId fingerprint) := by
  refine wellFormedObject_iff.mpr ⟨by simp [driftIssue, Json.field], ?_⟩
  have hexemplars : (Json.arr (if traceId = [] then [] else [.str traceId])).WellFormed := by
    split
    · exact wellFormed_arr.mpr (by simp)
    · exact wellFormed_arr.mpr fun item hitem => by
        rw [List.mem_singleton.mp hitem]
        exact htrace
  simp only [driftIssue, List.forall_mem_cons, List.not_mem_nil, false_implies, implies_true, and_true,
    Str.joined_ofString, true_and]
  exact ⟨hfingerprint, Str.joined_ofString _, hname, htopic, Str.joined_nil, trivial, hexemplars⟩

theorem sound_onIssues {α : Type} {x : Merge α} (hx : Py.Preserves SoundIssues x) :
    Py.Preserves Catalog.Sound (onIssues x) :=
  fun c hc => { hc with issues := hx c.issues hc.issues }

theorem wellFormed_entries {body : Fields} (hbody : WellFormedObject body) {key : Str} {items : List Json}
    (h : raises (Json.iter (Json.orElse (getField body key) (.arr []))) = .ok items) :
    ∀ item ∈ items, item.WellFormed :=
  wellFormed_iter (wellFormed_orElse (wellFormed_getField hbody key) (wellFormed_arr.mpr (by simp)))
    (raises_ok_iff.mp h)

variable [UnicodeData]

theorem joined_textField {fields : Fields} (h : WellFormedObject fields) (key : Str) :
    (textField fields key).Joined := by
  unfold textField
  cases hget : Entries.get? key fields with
  | none => exact Str.joined_nil
  | some value => exact joined_text (wellFormed_get? h hget)

theorem joined_require {body : Fields} (h : WellFormedObject body) {key name : Str}
    (hrequire : require body key = .ok name) : name.Joined := by
  unfold require at hrequire
  dsimp only at hrequire
  split at hrequire
  · cases hrequire
    exact joined_text (wellFormed_getField h key)
  · cases hrequire

theorem sound_registering {record : Service} (hrecord : record.Sound) {body : Fields}
    (hbody : WellFormedObject body) : (record.registering body).Sound where
  name := hrecord.name
  registrationHash := wellFormed_optionalText (joined_text (wellFormed_getField hbody _))
  previousRegistrationHash := by
    have hheld := hrecord.registrationHash
    have hprevious := hrecord.previousRegistrationHash
    unfold Service.registering
    dsimp only
    split
    · rename_i held hsome
      rw [hsome] at hheld
      split
      · exact hheld
      · exact hprevious
    · exact hprevious
  consumed := wellFormed_strings.mpr (joined_specTopicIds hbody _)
  produced := wellFormed_strings.mpr (joined_specTopicIds hbody _)
  known := by
    refine wellFormed_strings.mpr fun text htext => ?_
    obtain ⟨member, -, rfl⟩ := List.mem_map.mp (Str.mem_sorted.mp htext)
    cases member <;> exact Str.joined_ofString _
  document := hbody
  topicSpecs := by
    refine wellFormed_objects.mpr fun entry hentry => ?_
    have hmem := (Entries.mem_update hentry).resolve_left List.not_mem_nil
    obtain ⟨spec, hspec, rfl⟩ := List.mem_map.mp hmem
    have hentry := wellFormed_specEntries hbody .requests spec hspec
    exact ⟨joined_entryTopic hentry, wellFormed_topicSpec hentry (wellFormed_schemaCatalogue hbody)⟩
  previousTopicSpecs := hrecord.topicSpecs
  instances := hrecord.instances

theorem sound_register {c : Catalog} (h : c.Sound) {name : Str} (hname : name.Joined) {body : Fields}
    (hbody : WellFormedObject body) : (c.register name body).Sound := by
  have hrecord := sound_registering (sound_serviceOrNew h hname) hbody
  have hset := sound_setService h name hrecord
  have hconsumed := wellFormed_strings.mp hrecord.consumed
  have hproduced := wellFormed_strings.mp hrecord.produced
  refine ⟨hset.services, fun topic htopic => ?_, fun topic htopic => ?_, h.events, h.spans, h.issues⟩
  · simp only [Catalog.register, Finset.mem_union, List.mem_toFinset] at htopic
    rcases htopic with (hold | hnew) | hnew
    · exact h.topics topic hold
    · exact hconsumed topic hnew
    · exact hproduced topic hnew
  · simp only [Catalog.register, Finset.mem_union, List.mem_toFinset] at htopic
    rcases htopic with hold | hnew
    · exact h.everConsumed topic hold
    · exact hconsumed topic hnew

theorem sound_ingestRegister {body : Fields} (hbody : WellFormedObject body) :
    Py.Preserves Catalog.Sound (ingestRegister body) :=
  .lift_bind fun _ hrequire => .bind (.modify fun _ hc => sound_register hc (joined_require hbody hrequire) hbody)
    fun _ => .pure _

theorem sound_ingestHeartbeat {body : Fields} (hbody : WellFormedObject body) :
    Py.Preserves Catalog.Sound (ingestHeartbeat body) := by
  have hhealth := wellFormed_orElse (wellFormed_getField hbody "health") wellFormedObject_nil
  refine .lift_bind fun name hrequire => ?_
  have hname := joined_require hbody hrequire
  refine .bind (sound_updateService (f := id) hname fun _ h => h) fun _ => .lift_bind fun checks hchecks => ?_
  refine .bind (.lift _) fun healthy => .bind (sound_updateService hname fun record hrecord => ?_)
    fun _ => .pure _
  refine { hrecord with instances := fun entry hentry => ?_ }
  rcases Entries.mem_set hentry with rfl | hold
  · refine wellFormed_instance (joined_textField hbody _) (wellFormed_getField hbody _)
      (wellFormed_optionalText (joined_text (wellFormed_getField hbody _))) ?_
    exact wellFormed_asObject (wellFormed_get hhealth (raises_ok_iff.mp hchecks))
  · exact hrecord.instances entry hold

theorem wellFormed_decodeEvent {raw : Json} (h : raw.WellFormed) {event : Event}
    (hdecode : decodeEvent raw = .ok event) :
    event.Timed ∧ event.snapshot.WellFormed ∧ event.service.Joined ∧ event.topic.Joined ∧
      event.traceId.Joined := by
  cases raw with
  | obj fields =>
      simp only [decodeEvent] at hdecode
      cases hduration : durationMs (getField fields "durationMs") with
      | error error =>
          rw [hduration] at hdecode
          cases hdecode
      | ok duration =>
          rw [hduration] at hdecode
          cases hdecode
          have hformed := wellFormed_durationMs (wellFormed_getField h _) hduration
          have htimed := durationMs_nonneg hduration
          refine ⟨htimed, wellFormedObject_iff.mpr ⟨by simp [Json.field], ?_⟩, joined_textField h _,
            joined_textField h _, joined_textField h _⟩
          simp only [List.forall_mem_cons, List.not_mem_nil, false_implies, implies_true, and_true,
            Str.joined_ofString, true_and]
          exact ⟨joined_textField h _, joined_textField h _, wellFormed_getField h _,
            joined_textField h _, joined_textField h _, joined_textField h _, wellFormed_getField h _,
            hformed⟩
  | _ => cases hdecode

theorem soundIssues_fileDrift {name topic traceId : Str} (hname : name.Joined) (htopic : topic.Joined)
    (htrace : traceId.Joined) : Py.Preserves SoundIssues (fileDrift name topic traceId) := by
  refine .lift_bind fun fingerprint hkey => ?_
  have hfingerprint := joined_driftFingerprint hkey
  exact soundIssues_mergeIssue hfingerprint (wellFormed_driftIssue hname htopic htrace hfingerprint)

theorem soundIssues_flagIfUndeclared {record : Service} (hrecord : record.Sound) {topic traceId : Str}
    (htopic : topic.Joined) (htrace : traceId.Joined) (declared : List Str) :
    Py.Preserves SoundIssues (flagDriftIfUndeclared record topic declared traceId) := by
  unfold flagDriftIfUndeclared
  split
  · exact soundIssues_fileDrift hrecord.name htopic htrace
  · exact .pure _

theorem soundIssues_flagDrift {c : Catalog} (h : c.Sound) {event : Event} (hservice : event.service.Joined)
    (htopic : event.topic.Joined) (htrace : event.traceId.Joined) :
    Py.Preserves SoundIssues (c.flagDrift event) := by
  unfold Catalog.flagDrift
  refine .bind ?_ fun _ => .bind (.lift _) fun caller => ?_
  · unfold flagConsumer
    split
    · exact soundIssues_flagIfUndeclared (sound_serviceOrNew h hservice) htopic htrace _
    · exact .pure _
  · split
    · split
      · rename_i record hget
        have hrecord := h.services _ ((Dict.mem_entries_iff _ _ _).mpr hget)
        unfold flagProvider
        split
        · exact soundIssues_flagIfUndeclared hrecord htopic htrace _
        · exact .pure _
      · exact .pure _
    · exact .pure _

theorem sound_ingestEvent {raw : Json} (h : raw.WellFormed) : Py.Preserves Catalog.Sound (ingestEvent raw) := by
  intro c hc
  cases hdecode : decodeEvent raw with
  | error error =>
      rw [ingestEvent_error hdecode]
      exact hc
  | ok event =>
      obtain ⟨htimed, hformed, hservice, htopic, htrace⟩ := wellFormed_decodeEvent h hdecode
      have hobserved := sound_observe hc htimed hformed hservice htopic
      rw [ingestEvent_ok hdecode]
      exact { hobserved with
        issues := soundIssues_flagDrift hobserved hservice htopic htrace c.issues hc.issues }

theorem sound_ingestTraces {body : Fields} (hbody : WellFormedObject body) :
    Py.Preserves Catalog.Sound (ingestTraces body) :=
  .lift_bind fun _ hitems => .bind (.mapEach fun raw hraw =>
    sound_ingestEvent (wellFormed_entries hbody hitems raw hraw)) fun _ => .pure _

theorem soundIssues_ingestIssue {raw : Json} (h : raw.WellFormed) :
    Py.Preserves SoundIssues (ingestIssue raw) := by
  refine .lift_bind fun fingerprint hget => ?_
  split
  · exact .bind (soundIssues_mergeIssue (joined_text (wellFormed_get h hget)) (wellFormed_asObject h))
      fun _ => .pure _
  · exact .pure _

theorem sound_ingestIssues {body : Fields} (hbody : WellFormedObject body) :
    Py.Preserves Catalog.Sound (ingestIssues body) := by
  refine .lift_bind fun name hrequire => ?_
  refine .bind (sound_updateService (joined_require hbody hrequire) fun _ hrecord => { hrecord with })
    fun _ => .lift_bind fun items hitems => ?_
  exact .bind (sound_onIssues (.mapEach fun raw hraw =>
    soundIssues_ingestIssue (wellFormed_entries hbody hitems raw hraw))) fun _ => .pure _

-- Every ingest of a body that JSON carries keeps a catalog that JSON carries,
-- also one that raises.
theorem sound_ingest {c : Catalog} (h : c.Sound) {post : Post} (hbody : WellFormedObject post.body) :
    (c.ingest post).Sound := by
  obtain ⟨feed, body⟩ := post
  cases feed with
  | register => exact sound_ingestRegister hbody c h
  | heartbeat => exact sound_ingestHeartbeat hbody c h
  | traces => exact sound_ingestTraces hbody c h
  | issues => exact sound_ingestIssues hbody c h

theorem sound_run {c : Catalog} (h : c.Sound) {posts : List Post}
    (hposts : ∀ post ∈ posts, WellFormedObject post.body) : (c.run posts).Sound := by
  induction posts generalizing c with
  | nil => exact h
  | cons post posts ih =>
      exact ih (sound_ingest h (hposts post List.mem_cons_self)) fun other hother =>
        hposts other (List.mem_cons_of_mem _ hother)

end Ingests

end Benzene.Mesh
