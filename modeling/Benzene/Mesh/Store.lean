import Benzene.Data.Utf8
import Benzene.Mesh.Restore

namespace Benzene.Mesh

open Benzene.Data

-- The file of the store: absent, or some bytes.
structure JsonFileCollectorStore where
  file : Option (List UInt8)

-- Text that is no JSON, and JSON that is no object, is nothing to restore.
def JsonFileCollectorStore.load (store : JsonFileCollectorStore) : Except PyError (Option Fields) :=
  match store.file with
  | none => .ok none
  | some bytes =>
      match Str.utf8Decode bytes with
      | none => .error ⟨.unicodeDecodeError, []⟩
      | some text =>
          match Json.loads (Str.universalNewlines text) with
          | some (.obj snapshot) => .ok (some snapshot)
          | _ => .ok none

section Startup

variable [UnicodeData]

-- `MeshCollector(store=store)`.
def MeshCollector (store : JsonFileCollectorStore) : Except RestoreError Catalog := do
  match ← raising store.load with
  | some saved => Catalog.empty.restore saved
  | none => return Catalog.empty

-- The collector comes up, with all of a complete snapshot or with nothing.
def StartsWhole (store : JsonFileCollectorStore) : Prop :=
  ∃ c, MeshCollector store = .ok c ∧
    (c = Catalog.empty ∨ ∃ snapshot, store.load = .ok (some snapshot) ∧ c.DescribedBy snapshot)

end Startup

section Blank

-- The member is absent, or an array, an object or a string without elements.
def HoldsNothing (snapshot : Fields) (key : Str) : Prop :=
  Json.iter ((Entries.get? key snapshot).getD (.arr [])) = .ok []

-- A snapshot of the current version with nothing in it.
structure Blank (snapshot : Fields) : Prop where
  services : HoldsNothing snapshot "services"
  topics : HoldsNothing snapshot "topics"
  everConsumed : HoldsNothing snapshot "everConsumed"
  events : HoldsNothing snapshot "events"
  issues : (Entries.get? ("issues" : Str) snapshot).getD (.obj []) = .obj []

-- What a file must hold for the collector to come up as it should.
def Restorable (snapshot : Fields) : Prop :=
  Json.same (Json.getField snapshot "version") (.int snapshotVersion) = false ∨
    (∃ c : Catalog, c.DescribedBy snapshot) ∨ Blank snapshot

theorem fieldOr_obj (fields : Fields) (key : Str) (default : Json) :
    fieldOr (.obj fields) key default = .ok ((Entries.get? key fields).getD default) := rfl

theorem textList_nil {snapshot : Fields} {key : Str} (h : HoldsNothing snapshot key) :
    textList (.obj snapshot) key = .ok [] := by
  unfold HoldsNothing at h
  simp only [textList, fieldOr_obj, bind, Except.bind, raising, h, Except.mapError]
  rfl

-- Only an empty list is decoded to an empty list.
theorem eq_nil_of_mapM {α β ε : Type} {f : α → Except ε β} {items : List α}
    (h : items.mapM f = .ok []) : items = [] := by
  rw [Except.mapM_eq_ok, List.forall₂_nil_right_iff] at h
  exact h

theorem raising_eq_ok {α : Type} {r : Except PyError α} {a : α} : raising r = .ok a ↔ r = .ok a := by
  cases r <;> simp [raising, Except.mapError]

theorem holdsNothing_of_textList {snapshot : Fields} {key : Str} {texts : List Str}
    (h : textList (.obj snapshot) key = .ok texts) (hempty : texts.toFinset = ∅) :
    HoldsNothing snapshot key := by
  have hnil : texts = [] := List.toFinset_eq_empty_iff texts |>.mp hempty
  rw [hnil, textList] at h
  obtain ⟨value, hvalue, hread⟩ := Except.bind_eq_ok.mp h
  obtain ⟨items, hitems, htexts⟩ := Except.bind_eq_ok.mp hread
  cases hvalue
  rw [eq_nil_of_mapM htexts] at hitems
  exact raising_eq_ok.mp hitems

theorem eq_nil_of_objectDict {value : Json} (h : objectDict value = .ok Dict.empty) :
    value = .obj [] := by
  unfold objectDict at h
  obtain ⟨fields, hfields, h⟩ := Except.bind_eq_ok.mp h
  obtain ⟨decoded, hdecoded, h⟩ := Except.bind_eq_ok.mp h
  have hnil : decoded = [] := Dict.ofEntries_eq_empty.mp (Except.ok.inj h)
  rw [hnil] at hdecoded
  cases value with
  | obj entries =>
      cases hfields
      rw [eq_nil_of_mapM hdecoded]
  | _ => cases hfields

variable [UnicodeData]

theorem restore_of_version {snapshot : Fields}
    (h : Json.same (Json.getField snapshot "version") (.int snapshotVersion) = false) (c : Catalog) :
    c.restore snapshot = .ok c := by
  rw [Catalog.restore, h]
  rfl

-- A snapshot of the current version restores to the empty catalog exactly when
-- there is nothing in it.
theorem restore_empty_iff {snapshot : Fields}
    (h : Json.same (Json.getField snapshot "version") (.int snapshotVersion) = true) :
    Catalog.empty.restore snapshot = .ok Catalog.empty ↔ Blank snapshot := by
  rw [Catalog.restore, h]
  constructor
  · intro hrestore
    simp only [Bool.not_true, Bool.false_eq_true, if_false] at hrestore
    obtain ⟨value, hvalue, hrestore⟩ := Except.bind_eq_ok.mp hrestore
    obtain ⟨services, hservices, hrestore⟩ := Except.bind_eq_ok.mp hrestore
    obtain ⟨records, hrecords, hrestore⟩ := Except.bind_eq_ok.mp hrestore
    obtain ⟨topics, htopics, hrestore⟩ := Except.bind_eq_ok.mp hrestore
    obtain ⟨everConsumed, hconsumed, hrestore⟩ := Except.bind_eq_ok.mp hrestore
    obtain ⟨eventsValue, heventsValue, hrestore⟩ := Except.bind_eq_ok.mp hrestore
    obtain ⟨rawEvents, hrawEvents, hrestore⟩ := Except.bind_eq_ok.mp hrestore
    obtain ⟨events, hevents, hrestore⟩ := Except.bind_eq_ok.mp hrestore
    obtain ⟨issuesValue, hissuesValue, hrestore⟩ := Except.bind_eq_ok.mp hrestore
    obtain ⟨issues, hissues, hrestore⟩ := Except.bind_eq_ok.mp hrestore
    have hcatalog := Except.ok.inj hrestore
    rw [Catalog.empty, Catalog.mk.injEq] at hcatalog
    obtain ⟨hnoServices, hnoTopics, hnoConsumed, hnoEvents, -, hnoIssues⟩ := hcatalog
    have hnoRecords : records = [] := List.map_eq_nil_iff.mp (Dict.ofEntries_eq_empty.mp hnoServices)
    rw [hnoRecords] at hrecords
    rw [hnoEvents] at hevents
    rw [hnoIssues] at hissues
    cases hvalue
    cases heventsValue
    cases hissuesValue
    refine ⟨?_, holdsNothing_of_textList htopics hnoTopics,
      holdsNothing_of_textList hconsumed hnoConsumed, ?_, eq_nil_of_objectDict hissues⟩
    · rw [eq_nil_of_mapM hrecords] at hservices
      exact raising_eq_ok.mp hservices
    · rw [eq_nil_of_mapM (raising_eq_ok.mp hevents)] at hrawEvents
      exact raising_eq_ok.mp hrawEvents
  · rintro ⟨hservices, htopics, hconsumed, hevents, hissues⟩
    have hnoServices := textList_nil htopics
    have hnoConsumed := textList_nil hconsumed
    unfold HoldsNothing at hservices hevents
    simp only [Bool.not_true, Bool.false_eq_true, if_false, fieldOr_obj, hissues, bind, Except.bind,
      raising, hservices, hevents, Except.mapError, List.mapM_nil, pure, Except.pure, hnoServices,
      hnoConsumed, objectDict, asFields, List.map_nil, List.toFinset_nil, Dict.ofEntries_nil,
      Catalog.empty]

theorem restore_whole_iff (snapshot : Fields) :
    (∃ c, Catalog.empty.restore snapshot = .ok c ∧
      (c = Catalog.empty ∨ c.DescribedBy snapshot)) ↔ Restorable snapshot := by
  unfold Restorable
  cases hversion : Json.same (Json.getField snapshot "version") (.int snapshotVersion) with
  | false =>
      constructor
      · intro _
        exact Or.inl rfl
      · intro _
        exact ⟨Catalog.empty, restore_of_version hversion Catalog.empty, Or.inl rfl⟩
  | true =>
      constructor
      · rintro ⟨c, hrestore, hempty | hdescribed⟩
        · rw [hempty] at hrestore
          exact Or.inr (Or.inr ((restore_empty_iff hversion).mp hrestore))
        · exact Or.inr (Or.inl ⟨c, hdescribed⟩)
      · rintro (hother | ⟨c, hdescribed⟩ | hblank)
        · cases hother
        · exact ⟨c, restore_described hdescribed Catalog.empty, Or.inr hdescribed⟩
        · exact ⟨Catalog.empty, (restore_empty_iff hversion).mpr hblank, Or.inl rfl⟩

end Blank

section Startup

variable [UnicodeData]

-- The bytes are UTF-8 text, and a JSON object in it can be restored.
def JsonFileCollectorStore.Sound (bytes : List UInt8) : Prop :=
  ∃ text, Str.utf8Decode bytes = some text ∧
    ∀ snapshot, Json.loads (Str.universalNewlines text) = some (.obj snapshot) → Restorable snapshot

theorem collector_of_load {store : JsonFileCollectorStore} {snapshot : Fields}
    (h : store.load = .ok (some snapshot)) :
    MeshCollector store = Catalog.empty.restore snapshot := by
  rw [MeshCollector, h]
  rfl

theorem startsWhole_of_load_none {store : JsonFileCollectorStore} (h : store.load = .ok none) :
    StartsWhole store := by
  refine ⟨Catalog.empty, ?_, Or.inl rfl⟩
  rw [MeshCollector, h]
  rfl

-- For every content of the file.
theorem startsWhole_iff (bytes : List UInt8) :
    StartsWhole ⟨some bytes⟩ ↔ JsonFileCollectorStore.Sound bytes := by
  unfold JsonFileCollectorStore.Sound
  cases hdecode : Str.utf8Decode bytes with
  | none =>
      have hload : (JsonFileCollectorStore.mk (some bytes)).load = .error ⟨.unicodeDecodeError, []⟩ := by
        simp only [JsonFileCollectorStore.load, hdecode]
      constructor
      · rintro ⟨c, hc, -⟩
        rw [MeshCollector, hload] at hc
        cases hc
      · rintro ⟨text, htext, -⟩
        cases htext
  | some text =>
      have hnothing (h : ∀ snapshot, Json.loads (Str.universalNewlines text) ≠ some (.obj snapshot)) :
          (JsonFileCollectorStore.mk (some bytes)).load = .ok none := by
        cases hloads : Json.loads (Str.universalNewlines text) with
        | none => simp only [JsonFileCollectorStore.load, hdecode, hloads]
        | some value =>
            cases value with
            | obj snapshot => exact absurd hloads (h snapshot)
            | _ => simp only [JsonFileCollectorStore.load, hdecode, hloads]
      by_cases hobject : ∃ snapshot, Json.loads (Str.universalNewlines text) = some (.obj snapshot)
      · obtain ⟨snapshot, hloads⟩ := hobject
        have hload : (JsonFileCollectorStore.mk (some bytes)).load = .ok (some snapshot) := by
          simp only [JsonFileCollectorStore.load, hdecode, hloads]
        unfold StartsWhole
        rw [collector_of_load hload]
        simpa [hload, hloads] using restore_whole_iff snapshot
      · have hnone : ∀ snapshot, Json.loads (Str.universalNewlines text) ≠ some (.obj snapshot) :=
          fun snapshot hloads => hobject ⟨snapshot, hloads⟩
        constructor
        · intro _
          exact ⟨text, rfl, fun snapshot hloads => absurd hloads (hnone snapshot)⟩
        · intro _
          exact startsWhole_of_load_none (hnothing hnone)

end Startup

section Example

-- A snapshot of one service without a name.
def namelessSnapshot : Fields :=
  [Json.field "version" (.int snapshotVersion), Json.field "services" (.arr [.obj []])]

def fileOf (snapshot : Fields) : List UInt8 := (Str.utf8Encode (Json.dumps (.obj snapshot))).getD []

theorem namelessFile_not_startsWhole :
    letI := UnicodeData.ascii
    ¬StartsWhole ⟨some (fileOf namelessSnapshot)⟩ := by
  let _ := UnicodeData.ascii
  rintro ⟨c, hc, -⟩
  have hraises : (MeshCollector ⟨some (fileOf namelessSnapshot)⟩).toOption = none := by decide +kernel
  rw [hc] at hraises
  cases hraises

end Example

end Benzene.Mesh
