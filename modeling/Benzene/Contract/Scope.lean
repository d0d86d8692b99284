import Benzene.Contract.Narrowing

namespace Benzene.Contract

open Benzene.Data
open Benzene.Mesh (Member isReservedTopic)

section Single

variable {document : ContractDocument} {request : RequestResponse}

theorem schema_of_toRaw {value : Json} {name : Str} (hname : name ∈ schemaFields)
    (hfield : name ∈ entryFields .requests) (h : Entries.get? name request.toRaw = some value) :
    value ∈ [request.request, request.response] := by
  have hname : name = "request" ∨ name = "response" := by
    simp only [schemaFields, entryFields, List.mem_cons, List.not_mem_nil, or_false] at hname hfield
    rcases hname with rfl | rfl | rfl
    · exact .inl rfl
    · exact .inr rfl
    · exact absurd hfield (by decide)
  rcases hname with rfl | rfl
  · rw [request.get?_toRaw_request] at h
    simp [Option.some.inj h]
  · rw [request.get?_toRaw_response, present] at h
    split at h
    · cases h
    · simp [Option.some.inj h]

variable [UnicodeData]

theorem projectMember_only_requests (hreserved : isReservedTopic request.topic.text = false) (schemas : Fields) :
    projectMember (toRawDocument (document.only request schemas)) .requests =
      projectEntries schemas .requests [request.toRaw] := by
  have htopic : Entries.get? ("topic" : Str) request.toRaw = some request.topic := rfl
  rw [projectMember_toRawDocument]
  show projectEntries schemas .requests (List.filter _ [request.toRaw]) = _
  rw [List.filter_cons_of_pos (by simp [isReserved_eq htopic, hreserved]), List.filter_nil]

theorem projectMember_only_events (schemas : Fields) :
    projectMember (toRawDocument (document.only request schemas)) .events = .ok (.arr []) :=
  projectMember_toRawDocument (document.only request schemas) .events

theorem projection_only_congr (hreserved : isReservedTopic request.topic.text = false) {schemas schemas' : Fields}
    (h : ∀ schema ∈ [request.request, request.response],
      normalizeSchema schemas schema = normalizeSchema schemas' schema) :
    projection (toRawDocument (document.only request schemas)) [.requests, .events] =
      projection (toRawDocument (document.only request schemas')) [.requests, .events] := by
  have hentry : projectEntry schemas request.toRaw (entryFields .requests) =
      projectEntry schemas' request.toRaw (entryFields .requests) := by
    apply projectEntry_congr
    intro name hname
    unfold fieldOf
    cases hget : Entries.get? name request.toRaw with
    | none => rfl
    | some value =>
        simp only [Option.map_some, Option.some.injEq]
        unfold projectField
        by_cases hschema : name ∈ schemaFields
        · rw [if_pos hschema, if_pos hschema]
          exact h value (schema_of_toRaw hschema hname hget)
        · rw [if_neg hschema, if_neg hschema]
  have hentries : projectEntries schemas .requests [request.toRaw] =
      projectEntries schemas' .requests [request.toRaw] := projectEntries_congr (.cons hentry .nil)
  simp only [projection, projectMember_only_requests hreserved, projectMember_only_events, hentries]

theorem agree_of_only (hreserved : isReservedTopic request.topic.text = false) {schemas schemas' : Fields}
    (h : Agree (projectMember (toRawDocument (document.only request schemas)) .requests)
      (projectMember (toRawDocument (document.only request schemas')) .requests)) :
    ∀ schema ∈ [request.request, request.response], schema ≠ .null →
      Agree (normalizeSchema schemas schema) (normalizeSchema schemas' schema) := by
  rw [projectMember_only_requests hreserved, projectMember_only_requests hreserved] at h
  have hplace : SamePlace request.toRaw request.toRaw := ⟨rfl, rfl⟩
  have hentries := projectEntries_agree (.cons hplace .nil) h
  cases hentries with
  | cons hentry _ =>
      obtain ⟨p, q, hp, hq, hsame⟩ := hentry
      have hfields := projectEntry_agree (nodup_entryFields .requests) hp hq hsame
      have hrequest := hfields "request" (by decide)
      have hresponse := hfields "response" (by decide)
      unfold fieldOf at hrequest hresponse
      rw [request.get?_toRaw_request] at hrequest
      rw [request.get?_toRaw_response] at hresponse
      intro schema hschema hne
      rcases List.mem_cons.mp hschema with rfl | hschema
      · cases hrequest with
        | some hagree => exact hagree
      · rw [List.mem_singleton] at hschema
        subst hschema
        rw [present, if_neg hne] at hresponse
        cases hresponse with
        | some hagree => exact hagree

end Single

section Topics

variable [UnicodeData]

theorem kept_null {catalogue : Fields} {roots : List Json} : Kept catalogue roots [] .null := by
  intro path name h
  cases h with
  | here hname _ => cases hname
  | there hmiddle _ _ => cases hmiddle

def SameContractHash (a b : ContractDocument) : Prop :=
  ∀ hash, contractHash hash (toRawDocument a) = contractHash hash (toRawDocument b)

-- The walk keeps what the entry's schemas expand.
def WalkKeeps (document : ContractDocument) (request : RequestResponse) : Prop :=
  ∀ schema ∈ [request.request, request.response],
    Kept document.schemas [request.request, request.response] [] schema

-- A topic's projection has the hash of its entry over every component if, and as far as
-- there is such a hash only if, the walk reaches what the hash expands.
theorem topicProjection_hash {data : Fields} {document : ContractDocument} {topic : Str}
    {request : RequestResponse} (hdata : (Json.obj data).Distinct)
    (hparse : parseDocument (.obj data) = .ok document) (hserved : document.findRequest topic = some request) :
    ∃ narrowed, topicProjection document topic = .ok narrowed ∧
      (WalkKeeps document request → SameContractHash narrowed (document.only request document.schemas)) ∧
      ∀ p, projection (toRawDocument (document.only request document.schemas)) [.requests, .events] = .ok p →
        SameContractHash narrowed (document.only request document.schemas) → WalkKeeps document request := by
  have hsound := parseDocument_sound hdata hparse
  have hmem : request ∈ document.requests := List.mem_of_find?_eq_some hserved
  have hreserved := hsound.unreserved request hmem
  refine ⟨document.only request (topicClosure document request), ?_, ?_, ?_⟩
  · unfold topicProjection
    rw [hserved]
  · intro hkept hash
    apply hashProjection_congr
    apply projection_only_congr hreserved
    intro schema hschema
    exact normalize_narrow hsound.schemas (hkept schema hschema)
  · intro p hp hhash schema hschema
    have hagree := agree_of_hashes (by decide) hhash hp .requests (by decide)
    have hschemas := agree_of_only hreserved hagree schema hschema
    by_cases hnull : schema = .null
    · rw [hnull]
      exact kept_null
    · have hdistinct : schema.Distinct := by
        obtain ⟨hrequest, hresponse⟩ := hsound.requests request hmem
        rcases List.mem_cons.mp hschema with rfl | hschema
        · exact hrequest
        · rw [List.mem_singleton] at hschema
          exact hschema ▸ hresponse
      exact kept_of_agree hsound.schemas hdistinct (hschemas hnull)

end Topics

section Documents

-- One topic, whose request is `schema`, over some components.
def topicOver (schema : Json) (schemas : Fields) : Fields :=
  [Json.field "schemaDialect" (.str "openapi-3.0"),
    Json.field "requests" (.arr [.obj [Json.field "topic" (.str "order"), Json.field "request" schema]]),
    Json.field "components" (.obj [Json.field "schemas" (.obj schemas)])]

def documentOver (schema : Json) (schemas : Fields) : ContractDocument where
  schemaDialect := "openapi-3.0"
  service := ""
  serviceVersion := .null
  versionScheme := .null
  description := .null
  requests := [⟨.str "order", schema, .null, .null, []⟩]
  events := []
  sends := []
  schemas := schemas
  messageEndpoint := .null
  transports := []
  contractHash := .null
  registrationHash := .null

def lineCatalogue : Fields := [Json.field "Line" (.obj [Json.field "type" (.str "string")])]

def singleTopic (schema : Json) : Fields := topicOver schema lineCatalogue

def singleDocument (schema : Json) : ContractDocument := documentOver schema lineCatalogue

def lineReference : Json := .obj [Json.field "$ref" (.str "#/components/schemas/Line")]

def orderRoot : Json := .obj [Json.field "$ref" (.str "#/components/schemas/Order")]

-- An order has lines and may amend another order; a refund is no part of the topic.
def orderCatalogue : Fields :=
  lineCatalogue ++
    [Json.field "Order" (.obj [Json.field "properties" (.obj [Json.field "line" lineReference,
      Json.field "amends" orderRoot])]), Json.field "Refund" (.obj [Json.field "properties" (.obj
        [Json.field "order" orderRoot])])]

theorem reaches_orderCatalogue (name : Str) : Reaches orderCatalogue (rootNames [orderRoot, .null]) name ↔
    name = "Line" ∨ name = "Order" := by
  have hreached : reachableNames orderCatalogue [orderRoot, .null] = [("Line" : Str), "Order"] := by decide
  rw [← mem_reachableNames, hreached]
  simp

theorem walkKeeps_order : letI := UnicodeData.ascii
    WalkKeeps (documentOver orderRoot orderCatalogue) ⟨.str "order", orderRoot, .null, .null, []⟩ := by
  let _ := UnicodeData.ascii
  have hline : (read .schema (component orderCatalogue "Line")).refs = [] := by decide
  have horder : (read .schema (component orderCatalogue "Order")).refs = [("Line" : Str), "Order"] := by decide
  have hreference : (read .schema orderRoot).refs = [("Order" : Str)] := by decide
  intro schema hschema
  change Kept orderCatalogue [orderRoot, .null] [] schema
  rcases List.mem_cons.mp hschema with rfl | hnull
  · apply kept_of_reached
    · rw [hreference]
      intro name hname
      exact (reaches_orderCatalogue name).mpr (.inr (List.mem_singleton.mp hname))
    · intro middle hmiddle name hname
      rcases (reaches_orderCatalogue middle).mp hmiddle with rfl | rfl
      · rw [hline] at hname
        cases hname
      · rw [horder] at hname
        exact (reaches_orderCatalogue name).mpr (by simpa using hname)
  · rw [List.mem_singleton.mp hnull]
    exact kept_null

theorem topicProjection_hash_order : letI := UnicodeData.ascii
    ∃ narrowed, topicProjection (documentOver orderRoot orderCatalogue) "order" = .ok narrowed ∧
      SameContractHash narrowed (documentOver orderRoot orderCatalogue) := by
  let _ := UnicodeData.ascii
  have hdistinct : (Json.obj (topicOver orderRoot orderCatalogue)).Distinct := by
    simp [topicOver, orderCatalogue, lineCatalogue, orderRoot, lineReference, Json.Distinct, Json.DistinctFields,
      Json.DistinctItems]
  have hserved : (documentOver orderRoot orderCatalogue).findRequest "order" =
      some ⟨.str "order", orderRoot, .null, .null, []⟩ := rfl
  obtain ⟨narrowed, hnarrowed, hkept, -⟩ := topicProjection_hash hdistinct rfl hserved
  exact ⟨narrowed, hnarrowed, hkept walkKeeps_order⟩

def notLine : Json := .obj [Json.field "not" lineReference]

-- What is reached through `not` alone is dropped, and the hash reads it as the open schema.
theorem not_topicProjection_hash : letI := UnicodeData.ascii
    parseDocument (.obj (singleTopic notLine)) = .ok (singleDocument notLine) ∧
      ∃ narrowed, topicProjection (singleDocument notLine) "order" = .ok narrowed ∧
        ¬SameContractHash narrowed (singleDocument notLine) := by
  refine ⟨rfl, _, rfl, ?_⟩
  intro h
  have hhash := h fun value => let _ := UnicodeData.ascii; .ok value.repr
  exact absurd hhash (by decide +kernel)

end Documents

end Benzene.Contract
