import Benzene.Contract.DerivedClosed
import Benzene.Contract.Parsed

namespace Benzene.Contract.Derivation

open Benzene.Data
open Benzene.Mesh (Member)

section Serving

-- What a document says of a service besides its entries.
structure Info where
  service : Str
  serviceVersion : Str := []
  versionScheme : Str := []
  description : Str := []
  runtime : Str := []
  placement : List (Str × Str) := []
  profile : Fields := []
  degraded : List Str := []
  messageEndpoint : Option Str := none
  transports : List Str := []

-- The members before the hashes: what says nothing is left out.
def Info.header (info : Info) : Fields :=
  [Json.field "schemaDialect" (.str "openapi-3.0"), Json.field "service" (.str info.service)] ++
    Json.fieldIf (info.serviceVersion ≠ []) "serviceVersion" (.str info.serviceVersion) ++
    Json.fieldIf (info.versionScheme ≠ []) "versionScheme" (.str info.versionScheme) ++
    Json.fieldIf (info.description ≠ []) "description" (.str info.description) ++
    Json.fieldIf (info.runtime ≠ []) "runtime" (.str info.runtime) ++
    Json.fieldIf (info.placement ≠ []) "placement" (.obj (Entries.mapValues .str info.placement)) ++
    Json.fieldIf (info.profile ≠ []) "profile" (.obj info.profile) ++
    Json.fieldIf (info.degraded ≠ []) "degraded" (.arr (info.degraded.map .str)) ++
    Json.optionalField "messageEndpoint" info.messageEndpoint ++
    Json.fieldIf (info.transports ≠ []) "transports" (.arr (info.transports.map .str))

def served (info : Info) (document : Document) (contractHash registrationHash : Str) : Fields :=
  info.header ++
    ([Json.field "contractHash" (.str contractHash), Json.field "registrationHash" (.str registrationHash)] ++
    document.body)

variable [UnicodeData]

-- The document as it is served, and as a service registers with it.
def Document.toPayload (hash : HashFunction) (info : Info) (document : Document) : Except PyError Fields := do
  return served info document (← contractHash hash document.body) (← registrationHash hash document.body)

end Serving

section Entries

variable {entry : Entry} {name : Str}

-- The entry of a member, by the name of its payload's field.
def Entry.fields (name : Str) (entry : Entry) : Fields :=
  [Json.field "topic" (.str entry.topic)] ++
    Json.fieldIf (entry.version ≠ []) "version" (.str entry.version) ++
    Json.fieldIf (entry.httpMappings ≠ []) "httpMappings" (.arr (entry.httpMappings.map mappingPayload)) ++
    [(name, entry.payload)] ++ (entry.response.toList.map fun response => Json.field "response" response)

theorem toPayload_eq (name : Str) (entry : Entry) : entry.toPayload name = .obj (entry.fields name) := rfl

-- What a derived document lists: objects, under topics of the service's own.
structure Entry.Listed (entry : Entry) : Prop where
  topic : Mesh.isReservedTopic entry.topic = false
  payload : ∃ fields, entry.payload = .obj fields
  response : ∀ response, entry.response = some response → ∃ fields, response = .obj fields

def Entry.versionField (entry : Entry) : Json := if entry.version = [] then .null else .str entry.version

def Entry.mappings (entry : Entry) : List HttpMapping :=
  entry.httpMappings.map fun mapping => ⟨.str mapping.1, .str mapping.2⟩

def Entry.asRequest (entry : Entry) : RequestResponse :=
  ⟨.str entry.topic, entry.payload, entry.response.getD .null, entry.versionField, entry.mappings⟩

def Entry.asEvent (entry : Entry) : EventEntry := ⟨.str entry.topic, entry.payload, entry.versionField⟩

def Entry.asSend (entry : Entry) : SendEntry :=
  ⟨.str entry.topic, entry.payload, entry.response.getD .null, entry.versionField⟩

theorem toRaw_version (version : Str) :
    presentField "version" (if version = [] then .null else .str version) =
      Json.fieldIf (version ≠ []) "version" (.str version) := by
  unfold presentField
  by_cases h : version = []
  · simp [h, Json.fieldIf]
  · simp [h, Json.fieldIf]

theorem toRaw_response {response : Option Json} (h : ∀ value, response = some value → ∃ fields, value = .obj fields) :
    presentField "response" (response.getD .null) = response.toList.map fun value => Json.field "response" value := by
  cases response with
  | none => rfl
  | some value =>
      obtain ⟨fields, rfl⟩ := h value rfl
      rfl

theorem toRaw_mappings (mappings : List (Str × Str)) :
    (mappings.map fun mapping => (⟨.str mapping.1, .str mapping.2⟩ : HttpMapping)).map HttpMapping.toRaw =
      mappings.map mappingPayload := by
  rw [List.map_map]
  rfl

theorem Entry.Listed.asRequest_toRaw (h : entry.Listed) : entry.asRequest.toRaw = entry.fields "request" := by
  unfold RequestResponse.toRaw Entry.asRequest Entry.fields Entry.mappings Entry.versionField
  rw [toRaw_version, toRaw_response h.response, toRaw_mappings]
  cases entry.httpMappings <;> simp

theorem Entry.Listed.asSend_toRaw (h : entry.Listed) (hmappings : entry.httpMappings = []) :
    entry.asSend.toRaw = entry.fields "request" := by
  unfold SendEntry.toRaw Entry.asSend Entry.fields Entry.versionField
  rw [toRaw_version, toRaw_response h.response, hmappings]
  simp [Json.fieldIf]

theorem asEvent_toRaw (hmappings : entry.httpMappings = []) (hresponse : entry.response = none) :
    entry.asEvent.toRaw = entry.fields "message" := by
  unfold EventEntry.toRaw Entry.asEvent Entry.fields Entry.versionField
  rw [toRaw_version, hmappings, hresponse]
  simp [Json.fieldIf]

end Entries

section Parsing

variable {entry : Entry} {name : Str}

theorem getField_fields (hname : name ∈ (["request", "message"] : List Str)) :
    Json.getField (entry.fields name) "topic" = .str entry.topic ∧
      Json.getField (entry.fields name) "version" = entry.versionField ∧
      Json.getField (entry.fields name) "httpMappings" =
        (if entry.httpMappings = [] then .null else .arr (entry.httpMappings.map mappingPayload)) ∧
      Json.getField (entry.fields name) name = entry.payload ∧
      Json.getField (entry.fields name) "response" = entry.response.getD .null := by
  obtain ⟨topic, version, payload, response, httpMappings⟩ := entry
  unfold Entry.fields Entry.versionField Json.getField
  rcases List.mem_pair.mp hname with rfl | rfl <;> cases response <;> by_cases hversion : version = [] <;>
    by_cases hmappings : httpMappings = [] <;>
      simp [Entries.get?_append, Json.get?_fieldIf, Json.field, hversion, hmappings]

theorem parseHttpMapping_payload (mapping : Str × Str) :
    parseHttpMapping (mappingPayload mapping) = .ok ⟨.str mapping.1, .str mapping.2⟩ := rfl

theorem orEmpty_payload (hlisted : entry.Listed) (hname : name ∈ (["request", "message"] : List Str)) :
    orEmpty (entry.fields name) name = entry.payload := by
  obtain ⟨fields, hpayload⟩ := hlisted.payload
  unfold orEmpty
  rw [(getField_fields hname).2.2.2.1, hpayload]
  cases fields <;> rfl

theorem parseRequest_listed (hlisted : entry.Listed) : parseRequest (entry.fields "request") = .ok entry.asRequest := by
  obtain ⟨htopic, hversion, hmappings, -, hresponse⟩ := @getField_fields entry "request" List.mem_cons_self
  have hpayload :=
    orEmpty_payload hlisted (List.mem_cons_self : ("request" : Str) ∈ (["request", "message"] : List Str))
  have hiter : (Json.orElse (Json.getField (entry.fields "request") "httpMappings") (.arr [])).iter =
      .ok (entry.httpMappings.map mappingPayload) := by
    rw [hmappings]
    cases entry.httpMappings <;> rfl
  have hparsed : (entry.httpMappings.map mappingPayload).mapM parseHttpMapping = .ok entry.mappings := by
    rw [Except.mapM_eq_ok, Entry.mappings, List.forall₂_map_left_iff, List.forall₂_map_right_iff, List.forall₂_same]
    exact fun mapping _ => parseHttpMapping_payload mapping
  unfold parseRequest
  rw [hiter]
  dsimp only [bind, Except.bind]
  rw [hparsed, htopic, hversion, hresponse, hpayload]
  rfl

theorem parseEvent_listed (hlisted : entry.Listed) : parseEvent (entry.fields "message") = entry.asEvent := by
  obtain ⟨htopic, hversion, -, -, -⟩ := @getField_fields entry "message" (by simp)
  have hpayload : orEmpty (entry.fields "message") "message" = entry.payload := orEmpty_payload hlisted (by simp)
  unfold parseEvent
  rw [htopic, hversion, hpayload]
  rfl

theorem parseSend_listed (hlisted : entry.Listed) : parseSend (entry.fields "request") = entry.asSend := by
  obtain ⟨htopic, hversion, -, -, hresponse⟩ := @getField_fields entry "request" List.mem_cons_self
  have hpayload : orEmpty (entry.fields "request") "request" = entry.payload :=
    orEmpty_payload hlisted List.mem_cons_self
  unfold parseSend
  rw [htopic, hversion, hresponse, hpayload]
  rfl

variable [UnicodeData]

theorem domainEntries_listed {data : Fields} {member : Member} {entries : List Entry}
    (hget : Json.getField data member.key = .arr (entries.map (Entry.toPayload name)))
    (hlisted : ∀ entry ∈ entries, entry.Listed) :
    domainEntries data member = .ok (entries.map (Entry.fields name)) := by
  have hiter : (Json.orElse (Json.getField data member.key) (.arr [])).iter =
      .ok (entries.map (Entry.toPayload name)) := by
    rw [hget]
    cases entries <;> rfl
  have hentries : (entries.map (Entry.toPayload name)).mapM (domainEntry member) =
      .ok (entries.map fun entry => some (entry.fields name)) := by
    rw [Except.mapM_eq_ok, List.forall₂_map_left_iff, List.forall₂_map_right_iff, List.forall₂_same]
    intro entry hentry
    rw [toPayload_eq]
    unfold domainEntry
    have htopic : Entries.get? ("topic" : Str) (entry.fields name) = some (.str entry.topic) := rfl
    simp only [htopic, Json.text, (hlisted entry hentry).topic, Bool.false_eq_true, if_false]
  unfold domainEntries
  rw [hiter]
  dsimp only [bind, Except.bind]
  rw [hentries]
  dsimp only [pure, Except.pure]
  rw [List.filterMap_map]
  congr 1
  show (entries.filterMap (some ∘ Entry.fields name)) = _
  rw [List.filterMap_eq_map]

end Parsing

section Documents

variable [UnicodeData]

theorem projection_congr_members {a b : Fields} (hentries : ∀ member : Member, Json.getField a member.key =
    Json.getField b member.key) (hschemas : schemasOf a = schemasOf b) (members : List Member) :
    projection a members = projection b members := by
  induction members with
  | nil => rfl
  | cons member rest ih =>
      have hmember : projectMember a member = projectMember b member := by
        unfold projectMember listedEntries
        rw [hentries, hschemas]
      rw [projection, projection, hmember, ih]

-- What a derived document lists.
structure Document.Listed (document : Document) : Prop where
  entries : ∀ entry ∈ document.requests ++ document.events ++ document.sends, entry.Listed
  events : ∀ entry ∈ document.events, entry.httpMappings = [] ∧ entry.response = none
  sends : ∀ entry ∈ document.sends, entry.httpMappings = []

variable {program : Program} {fuel : Nat} {mappings : Str × Str → List (Str × Str)} {registrations : Registrations}
  {document : Document}

omit [UnicodeData] in
theorem declared_unreserved {member : Member} {declared : Declared} (h : declared ∈ registrations.declared member) :
    Mesh.isReservedTopic declared.topic = false := by
  have hreserved : isReservedTopic declared.topic = false := by
    cases member with
    | requests | events | sends => simpa using (List.mem_filter.mp h).2
  exact hreserved

omit [UnicodeData] in
theorem declared_event {declared : Declared} (h : declared ∈ registrations.declared .events) :
    declared.response = none := by
  obtain ⟨event, -, rfl⟩ := List.mem_map.mp (List.mem_filter.mp h).1
  rfl

theorem Catalogued.mem_entries {components : List Component} {outlined : Member → List Outlined}
    (h : Catalogued program registrations components outlined) (member : Member) {listed : Str × Str → List (Str × Str)}
    {entry : Entry}
    (hentry : entry ∈ sortEntries ((outlined member).map (Outlined.entry (componentName program) listed))) :
    ∃ declared ∈ registrations.declared member, ∃ source, DescribesEntry program declared source ∧
      entry = source.entry (componentName program) listed := by
  rw [sortEntries, (sortOn_perm _ _).mem_iff] at hentry
  obtain ⟨source, hsource, rfl⟩ := List.mem_map.mp hentry
  obtain ⟨declared, hdeclared, hdescribes⟩ := exists_of_mem_right (h.entries member) hsource
  exact ⟨declared, hdeclared, source, hdescribes, rfl⟩

theorem listed_entry {member : Member} {declared : Declared} (hdeclared : declared ∈ registrations.declared member)
    {source : Outlined} (h : DescribesEntry program declared source) (listed : Str × Str → List (Str × Str)) :
    (source.entry (componentName program) listed).Listed where
  topic := by
    rw [Outlined.entry, h.same]
    exact declared_unreserved hdeclared
  payload := ⟨_, rfl⟩
  response := by
    intro response hresponse
    obtain ⟨outline, -, rfl⟩ := Option.map_eq_some_iff.mp hresponse
    exact ⟨_, rfl⟩

theorem deriveDocument_listed (h : deriveDocument program fuel mappings registrations = .ok document) :
    document.Listed := by
  obtain ⟨components, outlined, hcatalogued, -, hrequests, hevents, hsends⟩ := deriveDocument_ok h
  refine ⟨?_, ?_, ?_⟩
  · intro entry hentry
    rw [hrequests, hevents, hsends] at hentry
    rcases List.mem_append.mp hentry with hentry | hentry
    · rcases List.mem_append.mp hentry with hentry | hentry
      · obtain ⟨declared, hdeclared, source, hdescribes, rfl⟩ := hcatalogued.mem_entries .requests hentry
        exact listed_entry hdeclared hdescribes _
      · obtain ⟨declared, hdeclared, source, hdescribes, rfl⟩ := hcatalogued.mem_entries .events hentry
        exact listed_entry hdeclared hdescribes _
    · obtain ⟨declared, hdeclared, source, hdescribes, rfl⟩ := hcatalogued.mem_entries .sends hentry
      exact listed_entry hdeclared hdescribes _
  · intro entry hentry
    rw [hevents] at hentry
    obtain ⟨declared, hdeclared, source, hdescribes, rfl⟩ := hcatalogued.mem_entries .events hentry
    have hresponse := hdescribes.response
    rw [declared_event hdeclared] at hresponse
    refine ⟨rfl, ?_⟩
    unfold Outlined.entry
    generalize source.response = response at hresponse
    cases hresponse
    rfl
  · intro entry hentry
    rw [hsends] at hentry
    obtain ⟨declared, hdeclared, source, hdescribes, rfl⟩ := hcatalogued.mem_entries .sends hentry
    rfl

def Document.listing (document : Document) : Member → List Entry
  | .requests => document.requests
  | .events => document.events
  | .sends => document.sends

-- A document lists the topics that were declared.
theorem deriveDocument_topics (h : deriveDocument program fuel mappings registrations = .ok document) (member : Member)
    (topic : Str) : (∃ entry ∈ document.listing member, entry.topic = topic) ↔
      ∃ declared ∈ registrations.declared member, declared.topic = topic := by
  obtain ⟨components, outlined, hcatalogued, -, hrequests, hevents, hsends⟩ := deriveDocument_ok h
  have hlisting : ∃ listed, document.listing member =
      sortEntries ((outlined member).map (Outlined.entry (componentName program) listed)) := by
    cases member with
    | requests => exact ⟨_, hrequests⟩
    | events => exact ⟨_, hevents⟩
    | sends => exact ⟨_, hsends⟩
  obtain ⟨listed, hlisting⟩ := hlisting
  rw [hlisting]
  constructor
  · rintro ⟨entry, hentry, rfl⟩
    obtain ⟨declared, hdeclared, source, hdescribes, rfl⟩ := hcatalogued.mem_entries member hentry
    refine ⟨declared, hdeclared, ?_⟩
    rw [← hdescribes.same]
    rfl
  · rintro ⟨declared, hdeclared, rfl⟩
    obtain ⟨source, hsource, hdescribes⟩ := exists_of_mem_left (hcatalogued.entries member) hdeclared
    refine ⟨source.entry (componentName program) listed, ?_, ?_⟩
    · rw [sortEntries, (sortOn_perm _ _).mem_iff]
      exact List.mem_map_of_mem hsource
    · rw [← hdescribes.same]
      rfl

end Documents

section RoundTrip

def textOrNull (text : Str) : Json := if text = [] then .null else .str text

-- What a generator reads of a served document.
def parsedDocument (info : Info) (document : Document) (contractHash registrationHash : Str) : ContractDocument where
  schemaDialect := "openapi-3.0"
  service := info.service
  serviceVersion := textOrNull info.serviceVersion
  versionScheme := textOrNull info.versionScheme
  description := textOrNull info.description
  requests := document.requests.map Entry.asRequest
  events := document.events.map Entry.asEvent
  sends := document.sends.map Entry.asSend
  schemas := document.schemas
  messageEndpoint := (info.messageEndpoint.map Json.str).getD .null
  transports := info.transports.map .str
  contractHash := .str contractHash
  registrationHash := .str registrationHash

variable {info : Info} {document : Document} {contractHash registrationHash : Str}

theorem getD_unless {α : Type} (p : Prop) [Decidable p] (a b : α) :
    (if p then none else some a).getD b = if p then b else a := by
  split <;> rfl

theorem getField_served :
    Json.getField (served info document contractHash registrationHash) "schemaDialect" = .str "openapi-3.0" ∧
    Json.getField (served info document contractHash registrationHash) "service" = .str info.service ∧
    Json.getField (served info document contractHash registrationHash) "serviceVersion" =
      textOrNull info.serviceVersion ∧
    Json.getField (served info document contractHash registrationHash) "versionScheme" = textOrNull info.versionScheme ∧
    Json.getField (served info document contractHash registrationHash) "description" = textOrNull info.description ∧
    Json.getField (served info document contractHash registrationHash) "messageEndpoint" =
      (info.messageEndpoint.map Json.str).getD .null ∧
    Json.getField (served info document contractHash registrationHash) "transports" =
      (if info.transports = [] then .null else .arr (info.transports.map .str)) ∧
    Json.getField (served info document contractHash registrationHash) "contractHash" = .str contractHash ∧
    Json.getField (served info document contractHash registrationHash) "registrationHash" = .str registrationHash ∧
    Json.getField (served info document contractHash registrationHash) "components" =
      .obj [Json.field "schemas" (.obj document.schemas)] := by
  unfold served Info.header Document.body Json.getField
  simp [Entries.get?_append, Json.get?_fieldIf, Json.get?_optionalField, Json.field, getD_unless, textOrNull]

theorem getField_served_member (member : Member) :
    Json.getField (served info document contractHash registrationHash) member.key =
      Json.getField document.body member.key := by
  unfold served Info.header Document.body Json.getField
  cases member with
  | requests | events | sends =>
      simp [Entries.get?_append, Json.get?_fieldIf, Json.get?_optionalField, Json.field, Member.key]

theorem toRawDocument_parsed (h : document.Listed) :
    toRawDocument (parsedDocument info document contractHash registrationHash) =
      (parsedDocument info document contractHash registrationHash).header ++ document.body := by
  have hrequests : (document.requests.map Entry.asRequest).map (fun r => Json.obj r.toRaw) =
      document.requests.map (Entry.toPayload "request") := by
    rw [List.map_map]
    apply List.map_congr_left
    intro entry hentry
    exact congrArg Json.obj (h.entries entry (List.mem_append_left _ (List.mem_append_left _ hentry))).asRequest_toRaw
  have hevents : (document.events.map Entry.asEvent).map (fun e => Json.obj e.toRaw) =
      document.events.map (Entry.toPayload "message") := by
    rw [List.map_map]
    apply List.map_congr_left
    intro entry hentry
    obtain ⟨hmappings, hresponse⟩ := h.events entry hentry
    exact congrArg Json.obj (asEvent_toRaw hmappings hresponse)
  have hsends : (document.sends.map Entry.asSend).map (fun s => Json.obj s.toRaw) =
      document.sends.map (Entry.toPayload "request") := by
    rw [List.map_map]
    apply List.map_congr_left
    intro entry hentry
    exact congrArg Json.obj ((h.entries entry (List.mem_append_right _ hentry)).asSend_toRaw (h.sends entry hentry))
  unfold toRawDocument Document.body parsedDocument
  dsimp only
  rw [hrequests, hevents, hsends]

variable [UnicodeData]

theorem parseDocument_served (h : document.Listed) :
    parseDocument (.obj (served info document contractHash registrationHash)) =
      .ok (parsedDocument info document contractHash registrationHash) := by
  obtain ⟨hdialect, hservice, hserviceVersion, hversionScheme, hdescription, hendpoint, htransports, hcontract,
    hregistration, hcomponents⟩ := @getField_served info document contractHash registrationHash
  have hentries {member : Member} {name : Str} {entries : List Entry}
      (hname : Json.getField document.body member.key = .arr (entries.map (Entry.toPayload name)))
      (hlisted : ∀ entry ∈ entries, entry.Listed) :
      domainEntries (served info document contractHash registrationHash) member =
        .ok (entries.map (Entry.fields name)) :=
    domainEntries_listed ((getField_served_member member).trans hname) hlisted
  have hrequests := @hentries .requests "request" document.requests rfl fun entry hentry =>
    h.entries entry (List.mem_append_left _ (List.mem_append_left _ hentry))
  have hevents := @hentries .events "message" document.events rfl fun entry hentry =>
    h.entries entry (List.mem_append_left _ (List.mem_append_right _ hentry))
  have hsends := @hentries .sends "request" document.sends rfl fun entry hentry =>
    h.entries entry (List.mem_append_right _ hentry)
  have hparsed : (document.requests.map (Entry.fields "request")).mapM parseRequest =
      .ok (document.requests.map Entry.asRequest) := by
    rw [Except.mapM_eq_ok, List.forall₂_map_left_iff, List.forall₂_map_right_iff, List.forall₂_same]
    exact fun entry hentry =>
      parseRequest_listed (h.entries entry (List.mem_append_left _ (List.mem_append_left _ hentry)))
  have hparsedEvents : (document.events.map (Entry.fields "message")).map parseEvent =
      document.events.map Entry.asEvent := by
    rw [List.map_map]
    apply List.map_congr_left
    exact fun entry hentry =>
      parseEvent_listed (h.entries entry (List.mem_append_left _ (List.mem_append_right _ hentry)))
  have hparsedSends : (document.sends.map (Entry.fields "request")).map parseSend =
      document.sends.map Entry.asSend := by
    rw [List.map_map]
    apply List.map_congr_left
    exact fun entry hentry => parseSend_listed (h.entries entry (List.mem_append_right _ hentry))
  have hschemas : dictOf (Json.orElse (.obj document.schemas) (.obj [])) = .ok document.schemas := by
    cases document.schemas <;> rfl
  have hiter : (Json.orElse (if info.transports = [] then .null else .arr (info.transports.map .str)) (.arr [])).iter =
      .ok (info.transports.map .str) := by
    cases info.transports <;> rfl
  have hname : (Json.orElse (.str info.service) (.str [])).text = info.service := by
    cases info.service <;> rfl
  unfold parseDocument orEmpty
  simp only [hdialect, hservice, hserviceVersion, hversionScheme, hdescription, hendpoint, htransports, hcontract,
    hregistration, hcomponents, hrequests, hevents, hsends, hparsed, hparsedEvents, hparsedSends, hiter, hname, bind,
    Except.bind, pure, Except.pure]
  have hget : (Json.orElse (.obj [Json.field "schemas" (.obj document.schemas)]) (.obj [])).get "schemas" =
      .ok (.obj document.schemas) := rfl
  rw [if_neg (by decide), if_neg (by simp), hget]
  dsimp only
  rw [hschemas]
  rfl

omit [UnicodeData] in
theorem schemasOf_served : schemasOf (served info document contractHash registrationHash) = document.schemas := by
  have hcomponents := (@getField_served info document contractHash registrationHash).2.2.2.2.2.2.2.2.2
  unfold schemasOf
  rw [hcomponents]
  rfl

theorem projection_served (members : List Member) :
    projection (served info document contractHash registrationHash) members = projection document.body members :=
  projection_congr_members getField_served_member schemasOf_served members

theorem projection_parsed (h : document.Listed) (members : List Member) :
    projection (toRawDocument (parsedDocument info document contractHash registrationHash)) members =
      projection document.body members := by
  apply projection_congr_members _ (schemasOf_toRawDocument _)
  intro member
  rw [toRawDocument_parsed h]
  apply getField_append_of_notMem
  intro hkey
  have hheader := keys_header _ member.key hkey
  revert hheader
  cases member with
  | requests | events | sends => decide

variable {program : Program} {fuel : Nat} {mappings : Str × Str → List (Str × Str)} {registrations : Registrations}

-- The document that a service derives, serves and registers is read and written again by a
-- generator without a loss, and under the hashes it was served with.
theorem deriveDocument_served (h : deriveDocument program fuel mappings registrations = .ok document)
    (hash : HashFunction) {payload : Fields} (hserved : document.toPayload hash info = .ok payload) :
    ∃ parsed, parseDocument (.obj payload) = .ok parsed ∧ toRawDocument parsed = parsed.header ++ document.body ∧
      (∃ value, parsed.contractHash = .str value ∧ Contract.contractHash hash payload = .ok value ∧
        Contract.contractHash hash (toRawDocument parsed) = .ok value) ∧
      ∃ value, parsed.registrationHash = .str value ∧ Contract.registrationHash hash payload = .ok value ∧
        Contract.registrationHash hash (toRawDocument parsed) = .ok value := by
  have hlisted := deriveDocument_listed h
  obtain ⟨contractHash, hcontract, hserved⟩ := Except.bind_eq_ok.mp hserved
  obtain ⟨registrationHash, hregistration, hserved⟩ := Except.bind_eq_ok.mp hserved
  cases hserved
  refine ⟨_, parseDocument_served hlisted, toRawDocument_parsed hlisted, ⟨contractHash, rfl, ?_, ?_⟩,
    registrationHash, rfl, ?_, ?_⟩
  · rw [← hcontract]
    exact hashProjection_congr (projection_served _) hash
  · rw [← hcontract]
    exact hashProjection_congr (projection_parsed hlisted _) hash
  · rw [← hregistration]
    exact hashProjection_congr (projection_served _) hash
  · rw [← hregistration]
    exact hashProjection_congr (projection_parsed hlisted _) hash

omit [UnicodeData] in
theorem deriveDocument_served_node : letI := UnicodeData.ascii
    ∃ payload parsed, nodeDocument.toPayload (fun value => .ok value.repr) { service := "nodes" } = .ok payload ∧
      parseDocument (.obj payload) = .ok parsed ∧ toRawDocument parsed = parsed.header ++ nodeDocument.body := by
  let _ := UnicodeData.ascii
  have hserved : ∃ payload, nodeDocument.toPayload (fun value => .ok value.repr) { service := "nodes" } = .ok payload :=
    ⟨_, rfl⟩
  obtain ⟨payload, hserved⟩ := hserved
  obtain ⟨parsed, hparsed, hraw, -⟩ := deriveDocument_served deriveDocument_node _ hserved
  exact ⟨payload, parsed, hserved, hparsed, hraw⟩

end RoundTrip

end Benzene.Contract.Derivation
