import Benzene.Contract.Entries

namespace Benzene.Contract

open Benzene.Data
open Benzene.Mesh (Member isReservedTopic reservedTopicPrefix)

section Domain

variable [UnicodeData] {data : Fields} {member : Member} {entries : List Fields}

-- An entry with a topic that is not a reserved one.
def InDomain (entry : Fields) : Prop :=
  ∃ topic, Entries.get? ("topic" : Str) entry = some topic ∧ isReservedTopic topic.text = false

theorem domainEntry_ok {item : Json} {kept : Option Fields} (h : domainEntry member item = .ok kept) :
    ∃ entry topic, item = .obj entry ∧ Entries.get? ("topic" : Str) entry = some topic ∧
      kept = if isReservedTopic topic.text then none else some entry := by
  match item with
  | .obj entry =>
      cases hget : Entries.get? ("topic" : Str) entry with
      | none =>
          simp only [domainEntry, hget] at h
          cases h
      | some topic =>
          simp only [domainEntry, hget] at h
          cases h
          exact ⟨entry, topic, rfl, hget, rfl⟩
  | .null | .bool _ | .int _ | .float _ | .str _ | .arr _ => cases h

theorem isReserved_eq {entry : Fields} {topic : Json}
    (h : Entries.get? ("topic" : Str) entry = some topic) : isReserved entry = isReservedTopic topic.text := by
  unfold isReserved getText
  rw [h]
  rfl

-- Among accepted entries the parser and the projection leave out the same ones.
theorem listed_of_domain {items : List Json} {kepts : List (Option Fields)}
    (h : List.Forall₂ (fun item kept => domainEntry member item = .ok kept) items kepts) :
    ((items.filterMap mapping?).filter fun entry => !isReserved entry) = kepts.filterMap id ∧
      ∀ entry ∈ kepts.filterMap id, InDomain entry := by
  induction h with
  | nil => exact ⟨rfl, by simp⟩
  | cons hhead _ ih =>
      obtain ⟨hlisted, hdomain⟩ := ih
      obtain ⟨entry, topic, rfl, hget, rfl⟩ := domainEntry_ok hhead
      have hmapping : mapping? (.obj entry) = some entry := rfl
      rw [List.filterMap_cons_some hmapping]
      cases hr : isReservedTopic topic.text with
      | true =>
          rw [List.filter_cons_of_neg (by simp [isReserved_eq hget, hr])]
          exact ⟨hlisted, hdomain⟩
      | false =>
          rw [List.filter_cons_of_pos (by simp [isReserved_eq hget, hr]), hlisted]
          refine ⟨rfl, ?_⟩
          exact List.forall_mem_cons.mpr ⟨⟨topic, hget, hr⟩, hdomain⟩

theorem domainEntries_ok (h : domainEntries data member = .ok entries) :
    listedEntries data member = .ok entries ∧ ∀ entry ∈ entries, InDomain entry := by
  obtain ⟨items, hitems, h⟩ := Except.bind_eq_ok.mp h
  obtain ⟨kepts, hkepts, h⟩ := Except.bind_eq_ok.mp h
  cases h
  obtain ⟨hlisted, hdomain⟩ := listed_of_domain (Except.mapM_eq_ok.mp hkepts)
  refine ⟨?_, hdomain⟩
  unfold listedEntries mappings
  rw [hitems, ← hlisted]
  rfl

theorem domainEntries_distinct (hdata : (Json.obj data).Distinct) (h : domainEntries data member = .ok entries) :
    ∀ entry ∈ entries, (Json.obj entry).Distinct := by
  obtain ⟨items, hitems, h⟩ := Except.bind_eq_ok.mp h
  obtain ⟨kepts, hkepts, h⟩ := Except.bind_eq_ok.mp h
  cases h
  have hdistinct : ∀ item ∈ items, item.Distinct := Json.distinct_iter
    (Json.distinct_orElse (Json.distinct_getField hdata _) (Json.distinct_arr.mpr (by simp))) hitems
  intro entry hentry
  obtain ⟨kept, hkept, hid⟩ := List.mem_filterMap.mp hentry
  obtain ⟨item, hitem, hok⟩ := Except.mem_of_mapM_eq_ok hkepts hkept
  obtain ⟨entry', topic, rfl, -, rfl⟩ := domainEntry_ok hok
  have heq : entry' = entry := by
    simp only [id] at hid
    split at hid
    · cases hid
    · exact Option.some.inj hid
  exact heq ▸ hdistinct _ hitem

end Domain

section Dictionaries

theorem distinct_orEmpty {data : Fields} (h : (Json.obj data).Distinct) (key : Str) : (orEmpty data key).Distinct :=
  Json.distinct_orElse (Json.distinct_getField h key) (Json.distinct_obj.mpr ⟨List.nodup_nil, by simp⟩)

theorem distinct_get {value : Json} (h : value.Distinct) {key : Str} {found : Json}
    (hget : value.get key = .ok found) : found.Distinct := by
  cases value with
  | obj fields =>
      cases hget
      exact Json.distinct_getField h key
  | null | bool _ | int _ | float _ | str _ | arr _ => cases hget

theorem distinct_dictPair {item : Json} (h : item.Distinct) {entry : Str × Json}
    (hok : dictPair item = .ok (some entry)) : entry.2.Distinct := by
  obtain ⟨values, hvalues, hok⟩ := Except.bind_eq_ok.mp hok
  have hdistinct := Json.distinct_iter h hvalues
  match values with
  | [key, value] =>
      simp only at hok
      split at hok
      · cases hok
      · split at hok
        · cases hok
          exact hdistinct value (by simp)
        · cases hok
  | [] | [_] | _ :: _ :: _ :: _ => cases hok

theorem distinct_dictOf {value : Json} (h : value.Distinct) {fields : Fields} (hok : dictOf value = .ok fields) :
    ∀ entry ∈ fields, entry.2.Distinct := by
  match value with
  | .obj members =>
      cases hok
      exact (Json.distinct_obj.mp h).2
  | .null | .bool _ | .int _ | .float _ | .str _ | .arr _ =>
      obtain ⟨items, hitems, hok⟩ := Except.bind_eq_ok.mp hok
      obtain ⟨pairs, hpairs, hok⟩ := Except.bind_eq_ok.mp hok
      cases hok
      intro entry hentry
      rcases Entries.mem_update hentry with hm | hm
      · cases hm
      · obtain ⟨pair, hpair, hid⟩ := List.mem_filterMap.mp hm
        obtain ⟨item, hitem, hok⟩ := Except.mem_of_mapM_eq_ok hpairs hpair
        have hdistinct := Json.distinct_iter h hitems item hitem
        rw [show pair = some entry from hid] at hok
        exact distinct_dictPair hdistinct hok

end Dictionaries

section Documents

theorem parseRequest_ok {entry : Fields} {r : RequestResponse} (h : parseRequest entry = .ok r) :
    r.topic = Json.getField entry "topic" ∧ r.request = orEmpty entry "request" ∧
      r.response = Json.getField entry "response" ∧ r.version = Json.getField entry "version" := by
  obtain ⟨items, -, h⟩ := Except.bind_eq_ok.mp h
  obtain ⟨mappings, -, h⟩ := Except.bind_eq_ok.mp h
  cases h
  exact ⟨rfl, rfl, rfl, rfl⟩

variable [UnicodeData]

-- The entries of each member.
def byMember (requests events sends : List Fields) : Member → List Fields
  | .requests => requests
  | .events => events
  | .sends => sends

-- What an accepted document was read from.
structure Parsed (data : Fields) (document : ContractDocument) (entries : Member → List Fields) : Prop where
  domain : ∀ member, domainEntries data member = .ok (entries member)
  requests : List.Forall₂ (fun entry r => parseRequest entry = .ok r) (entries .requests) document.requests
  events : document.events = (entries .events).map parseEvent
  sends : document.sends = (entries .sends).map parseSend
  schemas : ∃ raw, (orEmpty data "components").get "schemas" = .ok raw ∧
    dictOf (Json.orElse raw (.obj [])) = .ok document.schemas

variable {data : Fields} {document : ContractDocument}

theorem parseDocument_ok (h : parseDocument (.obj data) = .ok document) :
    ∃ entries, Parsed data document entries := by
  unfold parseDocument at h
  simp only at h
  split at h
  · cases h
  · split at h
    · cases h
    · obtain ⟨requestEntries, hrequestEntries, h⟩ := Except.bind_eq_ok.mp h
      obtain ⟨requests, hrequests, h⟩ := Except.bind_eq_ok.mp h
      obtain ⟨eventEntries, hevents, h⟩ := Except.bind_eq_ok.mp h
      obtain ⟨sendEntries, hsends, h⟩ := Except.bind_eq_ok.mp h
      obtain ⟨raw, hraw, h⟩ := Except.bind_eq_ok.mp h
      obtain ⟨schemas, hschemas, h⟩ := Except.bind_eq_ok.mp h
      obtain ⟨transports, -, h⟩ := Except.bind_eq_ok.mp h
      cases h
      refine ⟨byMember requestEntries eventEntries sendEntries, ?_, Except.mapM_eq_ok.mp hrequests, rfl, rfl, raw,
        hraw, hschemas⟩
      intro member
      cases member with
      | requests => exact hrequestEntries
      | events => exact hevents
      | sends => exact hsends

-- The dictionaries an accepted document keeps hold each key once.
structure ContractDocument.Sound (document : ContractDocument) : Prop where
  requests : ∀ r ∈ document.requests, r.request.Distinct ∧ r.response.Distinct
  unreserved : ∀ r ∈ document.requests, isReservedTopic r.topic.text = false
  schemas : ∀ entry ∈ document.schemas, entry.2.Distinct

theorem parseDocument_sound (hdata : (Json.obj data).Distinct) (h : parseDocument (.obj data) = .ok document) :
    document.Sound := by
  obtain ⟨entries, hparsed⟩ := parseDocument_ok h
  have hrequest : ∀ r ∈ document.requests, ∃ entry ∈ entries .requests, parseRequest entry = .ok r :=
    fun r hr => Except.mem_of_mapM_eq_ok (Except.mapM_eq_ok.mpr hparsed.requests) hr
  refine ⟨?_, ?_, ?_⟩
  · intro r hr
    obtain ⟨entry, hentry, hok⟩ := hrequest r hr
    obtain ⟨-, hrequest, hresponse, -⟩ := parseRequest_ok hok
    have hdistinct := domainEntries_distinct hdata (hparsed.domain .requests) entry hentry
    rw [hrequest, hresponse]
    exact ⟨distinct_orEmpty hdistinct _, Json.distinct_getField hdistinct _⟩
  · intro r hr
    obtain ⟨entry, hentry, hok⟩ := hrequest r hr
    obtain ⟨topic, hget, hreserved⟩ := (domainEntries_ok (hparsed.domain .requests)).2 entry hentry
    rw [(parseRequest_ok hok).1, Json.getField, hget]
    exact hreserved
  · obtain ⟨raw, hraw, hschemas⟩ := hparsed.schemas
    apply distinct_dictOf _ hschemas
    apply Json.distinct_orElse
    · exact distinct_get (distinct_orEmpty hdata _) hraw
    · exact Json.distinct_obj.mpr ⟨List.nodup_nil, by simp⟩

end Documents

section Written

-- A value that is written only where it is not null.
def present (value : Json) : Option Json := if value = .null then none else some value

theorem get?_presentField (key other : Str) (value : Json) :
    Entries.get? other (presentField key value) = if key = other then present value else none := by
  unfold presentField present
  rw [Json.get?_fieldIf]
  by_cases hvalue : value = .null <;> by_cases hkey : key = other <;> simp [hvalue, hkey]

theorem RequestResponse.get?_toRaw_request (r : RequestResponse) :
    Entries.get? ("request" : Str) r.toRaw = some r.request := by
  unfold RequestResponse.toRaw
  simp [Entries.get?_append, get?_presentField, Json.get?_fieldIf]

theorem RequestResponse.get?_toRaw_response (r : RequestResponse) :
    Entries.get? ("response" : Str) r.toRaw = present r.response := by
  unfold RequestResponse.toRaw
  simp [Entries.get?_append, get?_presentField, Json.get?_fieldIf]

end Written

end Benzene.Contract
