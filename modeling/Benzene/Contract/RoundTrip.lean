import Benzene.Contract.Narrowing

namespace Benzene.Contract

open Benzene.Data
open Benzene.Mesh (Member isReservedTopic)

section Presence

variable {entry : Fields} {key : Str}

theorem getField_of_get? {value : Json} (h : Entries.get? key entry = some value) :
    Json.getField entry key = value := by
  rw [Json.getField, h, Option.getD_some]

theorem getField_of_none (h : Entries.get? key entry = none) : Json.getField entry key = .null := by
  rw [Json.getField, h, Option.getD_none]

-- What is written only where it is not null is what was there, unless that was null.
theorem present_getField : present (Json.getField entry key) = Entries.get? key entry ↔
    Entries.get? key entry ≠ some .null := by
  unfold present
  cases hget : Entries.get? key entry with
  | none => simp [getField_of_none hget]
  | some value =>
      rw [getField_of_get? hget]
      by_cases hnull : value = .null <;> simp [hnull]

theorem present_isSome (h : (present (Json.getField entry key)).isSome = true) :
    (Entries.get? key entry).isSome = true := by
  cases hget : Entries.get? key entry with
  | none =>
      rw [getField_of_none hget] at h
      exact absurd h (by decide)
  | some value => rfl

theorem orEmpty_of_get? {value : Json} (h : Entries.get? key entry = some value) :
    orEmpty entry key = value ↔ value.truthy = true ∨ value = .obj [] := by
  unfold orEmpty Json.orElse
  rw [getField_of_get? h]
  by_cases htruthy : value.truthy = true
  · simp [htruthy]
  · rw [if_neg htruthy]
    simp [htruthy, eq_comm]

theorem orEmpty_of_falsy (h : (Json.getField entry key).truthy = false) : orEmpty entry key = .obj [] := by
  unfold orEmpty Json.orElse
  rw [if_neg (by simp [h])]

end Presence

section Mappings

theorem subscript_ok {value : Json} {key : Str} {found : Json} (h : subscript value key = .ok found) :
    ∃ fields, value = .obj fields ∧ Entries.get? key fields = some found := by
  cases value with
  | obj fields =>
      cases hget : Entries.get? key fields with
      | none =>
          simp only [subscript, hget] at h
          cases h
      | some other =>
          simp only [subscript, hget] at h
          cases h
          exact ⟨fields, rfl, hget⟩
  | null | bool _ | int _ | float _ | str _ | arr _ => cases h

def HttpMapping.fields (mapping : HttpMapping) : Fields :=
  [Json.field "method" mapping.method, Json.field "path" mapping.path]

theorem parseHttpMapping_ok {item : Json} {mapping : HttpMapping} (h : parseHttpMapping item = .ok mapping) :
    ∃ fields, item = .obj fields ∧ getText fields "method" = getText mapping.fields "method" ∧
      getText fields "path" = getText mapping.fields "path" := by
  obtain ⟨method, hmethod, h⟩ := Except.bind_eq_ok.mp h
  obtain ⟨path, hpath, h⟩ := Except.bind_eq_ok.mp h
  cases h
  obtain ⟨fields, rfl, hgetMethod⟩ := subscript_ok hmethod
  obtain ⟨_, heq, hgetPath⟩ := subscript_ok hpath
  cases heq
  refine ⟨fields, rfl, ?_, ?_⟩
  · rw [getText, hgetMethod]
    rfl
  · rw [getText, hgetPath]
    rfl

theorem iter_ne_nil {value : Json} (htruthy : value.truthy = true) {items : List Json}
    (h : value.iter = .ok items) : items ≠ [] := by
  rintro rfl
  cases value with
  | arr values =>
      cases values with
      | nil => cases htruthy
      | cons _ _ => cases h
  | obj fields =>
      cases fields with
      | nil => cases htruthy
      | cons _ _ => cases h
  | str text =>
      cases text with
      | nil => cases htruthy
      | cons _ _ => cases h
  | null | bool _ | int _ | float _ => cases h

variable [UnicodeData]

theorem projectHttpMappings_congr {value written : Json} {items : List Json} {mappings : List HttpMapping}
    (hitems : (Json.orElse value (.arr [])).iter = .ok items)
    (hparsed : List.Forall₂ (fun item mapping => parseHttpMapping item = .ok mapping) items mappings)
    (hwritten : written = .arr (mappings.map HttpMapping.toRaw)) :
    projectHttpMappings written = projectHttpMappings value := by
  have hraw : written = .arr ((mappings.map HttpMapping.fields).map .obj) := by
    rw [hwritten, List.map_map]
    rfl
  have hpairs : ((mappings.map HttpMapping.fields).map fun mapping =>
        (Str.upper (getText mapping "method").text, getText mapping "path")) =
      (items.filterMap mapping?).map fun mapping =>
        (Str.upper (getText mapping "method").text, getText mapping "path") := by
    clear hitems hwritten hraw
    induction hparsed with
    | nil => rfl
    | cons hhead _ ih =>
        obtain ⟨fields, rfl, hmethod, hpath⟩ := parseHttpMapping_ok hhead
        have hmapping : mapping? (.obj fields) = some fields := rfl
        rw [List.filterMap_cons_some hmapping, List.map_cons, List.map_cons, List.map_cons, hmethod, hpath, ih]
  unfold projectHttpMappings
  rw [hraw, mappings_arr]
  unfold Contract.mappings
  rw [hitems]
  show (sortedBy mappingKey _ >>= _ : Except PyError Json) = (sortedBy mappingKey _ >>= _ : Except PyError Json)
  rw [hpairs]

end Mappings

section Rebuilding

variable [UnicodeData]

-- An entry that was parsed and written again.
structure Rebuilt (member : Member) (entry raw : Fields) : Prop where
  topic : Entries.get? ("topic" : Str) raw = Entries.get? ("topic" : Str) entry
  version : Entries.get? ("version" : Str) raw = present (Json.getField entry "version")
  payload : Entries.get? (payloadField member) raw = some (orEmpty entry (payloadField member))
  response : member ≠ .events → Entries.get? ("response" : Str) raw = present (Json.getField entry "response")
  mappings : member = .requests →
    ((Json.getField entry "httpMappings").truthy = false ∧ Entries.get? ("httpMappings" : Str) raw = none) ∨
    ∃ value written, Entries.get? ("httpMappings" : Str) entry = some value ∧ value.truthy = true ∧
      Entries.get? ("httpMappings" : Str) raw = some written ∧
      projectHttpMappings written = projectHttpMappings value

theorem rebuilt_event {entry : Fields} (h : InDomain entry) : Rebuilt .events entry (parseEvent entry).toRaw where
  topic := by
    obtain ⟨topic, hget, -⟩ := h
    rw [hget]
    simp [EventEntry.toRaw, parseEvent, getField_of_get? hget]
  version := by simp [EventEntry.toRaw, parseEvent, Entries.get?_append, get?_presentField]
  payload := by simp [EventEntry.toRaw, parseEvent, Entries.get?_append, get?_presentField, payloadField]
  response := fun hne => absurd rfl hne
  mappings := fun heq => nomatch heq

theorem rebuilt_send {entry : Fields} (h : InDomain entry) : Rebuilt .sends entry (parseSend entry).toRaw where
  topic := by
    obtain ⟨topic, hget, -⟩ := h
    rw [hget]
    simp [SendEntry.toRaw, parseSend, getField_of_get? hget]
  version := by simp [SendEntry.toRaw, parseSend, Entries.get?_append, get?_presentField]
  payload := by simp [SendEntry.toRaw, parseSend, Entries.get?_append, get?_presentField, payloadField]
  response := by simp [SendEntry.toRaw, parseSend, Entries.get?_append, get?_presentField]
  mappings := fun heq => nomatch heq

theorem rebuilt_request {entry : Fields} {r : RequestResponse} (h : InDomain entry)
    (hparse : parseRequest entry = .ok r) : Rebuilt .requests entry r.toRaw := by
  obtain ⟨items, hitems, hparse⟩ := Except.bind_eq_ok.mp hparse
  obtain ⟨mappings, hmappings, hparse⟩ := Except.bind_eq_ok.mp hparse
  cases hparse
  obtain ⟨topic, hget, -⟩ := h
  refine ⟨?_, ?_, ?_, ?_, ?_⟩
  · rw [hget]
    simp [RequestResponse.toRaw, getField_of_get? hget]
  · simp [RequestResponse.toRaw, Entries.get?_append, get?_presentField, Json.get?_fieldIf]
  · simp [RequestResponse.toRaw, Entries.get?_append, get?_presentField, Json.get?_fieldIf, payloadField]
  · simp [RequestResponse.toRaw, Entries.get?_append, get?_presentField, Json.get?_fieldIf]
  · intro _
    rw [Except.mapM_eq_ok] at hmappings
    cases htruthy : (Json.getField entry "httpMappings").truthy with
    | false =>
        rw [Json.orElse, if_neg (by simp [htruthy])] at hitems
        cases hitems
        cases hmappings
        refine .inl ⟨rfl, ?_⟩
        simp [RequestResponse.toRaw, Entries.get?_append, get?_presentField, Json.get?_fieldIf]
    | true =>
        have hne : mappings ≠ [] := by
          rintro rfl
          rw [Json.orElse, if_pos htruthy] at hitems
          cases hmappings
          exact iter_ne_nil htruthy hitems rfl
        cases hvalue : Entries.get? ("httpMappings" : Str) entry with
        | none =>
            rw [getField_of_none hvalue] at htruthy
            cases htruthy
        | some value =>
            have hfield := getField_of_get? hvalue
            refine .inr ⟨value, .arr (mappings.map HttpMapping.toRaw), rfl, hfield ▸ htruthy, ?_, ?_⟩
            · simp [RequestResponse.toRaw, Entries.get?_append, get?_presentField, Json.get?_fieldIf, hne]
            · rw [hfield] at hitems
              exact projectHttpMappings_congr hitems hmappings rfl

end Rebuilding

section Catalogues

-- `components.schemas`, whatever it is.
def rawSchemas (data : Fields) : Json :=
  match Json.getField data "components" with
  | .obj components => Json.getField components "schemas"
  | _ => .null

def mapping (value : Json) : Fields := (mapping? value).getD []

theorem schemasOf_eq (data : Fields) : schemasOf data = mapping (rawSchemas data) := by
  unfold schemasOf rawSchemas
  cases Json.getField data "components" with
  | obj components =>
      simp only
      cases Json.getField components "schemas" <;> rfl
  | null | bool _ | int _ | float _ | str _ | arr _ => rfl

theorem rawSchemas_eq {data : Fields} {raw : Json} (h : (orEmpty data "components").get "schemas" = .ok raw) :
    raw = rawSchemas data := by
  unfold orEmpty Json.orElse at h
  unfold rawSchemas
  cases hcomponents : Json.getField data "components" with
  | obj components =>
      rw [hcomponents] at h
      cases components with
      | nil =>
          cases h
          rfl
      | cons entry rest =>
          cases h
          rfl
  | null | bool _ | int _ | float _ | str _ | arr _ =>
      rw [hcomponents] at h
      split at h
      · cases h
      · cases h
        rfl

-- The parser and the projection read the same components, but for a list of pairs.
theorem dictOf_orEmpty {value : Json} {schemas : Fields} (h : dictOf (Json.orElse value (.obj [])) = .ok schemas) :
    schemas = mapping value ∨ ∃ pairs, value = .arr pairs ∧ dictOf (.arr pairs) = .ok schemas := by
  cases htruthy : value.truthy with
  | false =>
      rw [Json.orElse, if_neg (by simp [htruthy])] at h
      cases h
      cases value with
      | obj fields =>
          cases fields with
          | nil => exact .inl rfl
          | cons _ _ => cases htruthy
      | null | bool _ | int _ | float _ | str _ | arr _ => exact .inl rfl
  | true =>
      rw [Json.orElse, if_pos htruthy] at h
      cases value with
      | arr pairs => exact .inr ⟨pairs, rfl, h⟩
      | obj fields =>
          cases h
          exact .inl rfl
      | str text =>
          cases text with
          | nil => cases htruthy
          | cons c rest =>
              obtain ⟨items, hitems, h⟩ := Except.bind_eq_ok.mp h
              cases hitems
              obtain ⟨pairs, hpairs, -⟩ := Except.bind_eq_ok.mp h
              rw [Except.mapM_eq_ok] at hpairs
              cases hpairs with
              | cons hhead _ => cases hhead
      | null | bool _ | int _ | float _ => cases h

variable [UnicodeData]

-- Where the components are a list of pairs, nothing is left of what a schema refers to.
def NamesNothing (data : Fields) (schema : Json) : Prop :=
  ∀ pairs schemas, rawSchemas data = .arr pairs → dictOf (.arr pairs) = .ok schemas →
    ∀ name ∈ (read .schema schema).refs, Blank schemas [name] (component schemas name)

variable {data schemas : Fields} {schema : Json}

theorem normalizeSchema_rebuilt (hdistinct : ∀ entry ∈ schemas, entry.2.Distinct)
    (hschemas : dictOf (Json.orElse (rawSchemas data) (.obj [])) = .ok schemas) (h : NamesNothing data schema) :
    normalizeSchema schemas schema = normalizeSchema (schemasOf data) schema := by
  rw [schemasOf_eq]
  rcases dictOf_orEmpty hschemas with heq | ⟨pairs, hpairs, hok⟩
  · rw [heq]
  · unfold normalizeSchema
    rw [hpairs, normalize_eq_expansion, normalize_eq_expansion]
    apply Shape.unfold_congr
    intro name hname _
    have hblank := h pairs schemas hpairs hok name hname
    rw [(expansion_blank_iff hdistinct [] name).mpr hblank]
    exact (expansion_dangling (by simp [mapping, mapping?]) []).symm

theorem namesNothing_of_agree (hs : schema.Distinct)
    (hschemas : dictOf (Json.orElse (rawSchemas data) (.obj [])) = .ok schemas)
    (h : Agree (normalizeSchema schemas schema) (normalizeSchema (schemasOf data) schema)) :
    NamesNothing data schema := by
  intro pairs schemas' hpairs hok name hname
  have hsame : schemas' = schemas := by
    rw [hpairs] at hschemas
    cases pairs with
    | nil =>
        cases hok
        cases hschemas
        rfl
    | cons pair rest => exact Except.ok.inj (hok.symm.trans hschemas)
  subst hsame
  unfold normalizeSchema at h
  rw [normalize_eq_expansion, normalize_eq_expansion, schemasOf_eq, hpairs] at h
  obtain ⟨v, w, hv, hw, hvw⟩ := Shape.unfold_inj (read_sound hs .schema) h name hname (by simp)
  rw [expansion_dangling (by simp [mapping, mapping?])] at hw
  cases hw
  rw [canonical_eq_empty hvw.symm] at hv
  exact blank_of_normalize hv

end Catalogues

section Entries

theorem payloadField_mem (member : Member) :
    payloadField member ∈ entryFields member ∧ payloadField member ∈ schemaFields := by
  cases member <;> decide

theorem response_mem {member : Member} (h : member ≠ .events) : ("response" : Str) ∈ entryFields member := by
  cases member with
  | events => exact absurd rfl h
  | requests => decide
  | sends => decide

theorem agree_of_rel {x y : Option (Except PyError Json)} (h : Option.Rel Agree x y) :
    (x = none ↔ y = none) ∧ ∀ v w, x = some v → y = some w → Agree v w := by
  cases h with
  | none => simp
  | some hagree =>
      refine ⟨by simp, ?_⟩
      rintro v w ⟨⟩ ⟨⟩
      exact hagree

variable [UnicodeData]

-- An entry that is written as it was read.
structure Survives (data : Fields) (member : Member) (entry : Fields) : Prop where
  version : Entries.get? ("version" : Str) entry ≠ some .null
  mappings : member = .requests → ∀ value, Entries.get? ("httpMappings" : Str) entry = some value →
    value.truthy = true
  payload : ∃ value, Entries.get? (payloadField member) entry = some value ∧
    (value.truthy = true ∨ value = .obj [])
  response : member ≠ .events → Entries.get? ("response" : Str) entry ≠ some .null
  schemas : ∀ name ∈ schemaFields, name ∈ entryFields member → ∀ value, Entries.get? name entry = some value →
    NamesNothing data value

variable {data schemas entry raw : Fields} {member : Member}

theorem fieldOf_rebuilt (hrebuilt : Rebuilt member entry raw) (hsurvives : Survives data member entry)
    (hdistinct : ∀ entry ∈ schemas, entry.2.Distinct)
    (hschemas : dictOf (Json.orElse (rawSchemas data) (.obj [])) = .ok schemas) {name : Str}
    (hname : name ∈ entryFields member) : fieldOf schemas raw name = fieldOf (schemasOf data) entry name := by
  have hschema (hs : name ∈ schemaFields) (hsame : Entries.get? name raw = Entries.get? name entry) :
      fieldOf schemas raw name = fieldOf (schemasOf data) entry name := by
    rw [fieldOf_schema hs, fieldOf_schema hs, hsame]
    cases hvalue : Entries.get? name entry with
    | none => rfl
    | some value =>
        rw [Option.map_some, Option.map_some]
        congr 1
        exact normalizeSchema_rebuilt hdistinct hschemas (hsurvives.schemas name hs hname value hvalue)
  rcases field_cases hname with rfl | rfl | ⟨rfl, hmember⟩ | rfl | ⟨rfl, hmember⟩
  · rw [fieldOf_plain (by decide) (by decide), fieldOf_plain (by decide) (by decide), hrebuilt.topic]
  · rw [fieldOf_plain (by decide) (by decide), fieldOf_plain (by decide) (by decide), hrebuilt.version,
      present_getField.mpr hsurvives.version]
  · rw [fieldOf_mappings, fieldOf_mappings]
    rcases hrebuilt.mappings hmember with ⟨hfalsy, hraw⟩ | ⟨value, written, hvalue, -, hwritten, hsame⟩
    · rw [hraw]
      cases hvalue : Entries.get? ("httpMappings" : Str) entry with
      | none => rfl
      | some value =>
          rw [getField_of_get? hvalue, hsurvives.mappings hmember value hvalue] at hfalsy
          cases hfalsy
    · rw [hvalue, hwritten, Option.map_some, Option.map_some, hsame]
  · obtain ⟨value, hvalue, hkept⟩ := hsurvives.payload
    apply hschema (payloadField_mem member).2
    rw [hrebuilt.payload, hvalue, (orEmpty_of_get? hvalue).mpr hkept]
  · apply hschema (by decide)
    rw [hrebuilt.response hmember, present_getField.mpr (hsurvives.response hmember)]

theorem normalizeSchema_of_falsy {catalogue : Fields} {value : Json} (hfalsy : value.truthy = false)
    (hne : value ≠ .obj []) : normalizeSchema catalogue value = .ok value := by
  cases value with
  | obj fields =>
      cases fields with
      | nil => exact absurd rfl hne
      | cons _ _ => cases hfalsy
  | null | bool _ | int _ | float _ | str _ | arr _ => exact normalize_eq_expansion [] _

section Agreement

-- The fields of an entry and of what is written of it agree.
variable (h : ∀ name ∈ entryFields member,
  Option.Rel Agree (fieldOf schemas raw name) (fieldOf (schemasOf data) entry name))

include h

theorem version_of_agree (hrebuilt : Rebuilt member entry raw) :
    Entries.get? ("version" : Str) entry ≠ some .null := by
  intro hnull
  have hrel := (agree_of_rel (h "version" (version_mem_entryFields member))).1
  rw [fieldOf_plain (by decide) (by decide), fieldOf_plain (by decide) (by decide), hrebuilt.version,
    getField_of_get? hnull, hnull] at hrel
  exact absurd (hrel.mp rfl) (by simp)

theorem response_of_agree (hrebuilt : Rebuilt member entry raw) (hmember : member ≠ .events) :
    Entries.get? ("response" : Str) entry ≠ some .null := by
  intro hnull
  have hrel := (agree_of_rel (h "response" (response_mem hmember))).1
  rw [fieldOf_schema (by decide), fieldOf_schema (by decide), hrebuilt.response hmember,
    getField_of_get? hnull, hnull] at hrel
  exact absurd (hrel.mp rfl) (by simp)

theorem mappings_of_agree (hrebuilt : Rebuilt member entry raw) (hmember : member = .requests) {value : Json}
    (hvalue : Entries.get? ("httpMappings" : Str) entry = some value) : value.truthy = true := by
  have hrel := (agree_of_rel (h "httpMappings" (by rw [hmember]; decide))).1
  rw [fieldOf_mappings, fieldOf_mappings, hvalue] at hrel
  rcases hrebuilt.mappings hmember with ⟨-, hraw⟩ | ⟨found, -, hfound, htruthy, -, -⟩
  · rw [hraw] at hrel
    exact absurd (hrel.mp rfl) (by simp)
  · rw [hvalue] at hfound
    cases hfound
    exact htruthy

-- The payload is there, is no other falsy value than the empty object, and its
-- form is the one that is written.
theorem payload_of_agree (hrebuilt : Rebuilt member entry raw) :
    ∃ value, Entries.get? (payloadField member) entry = some value ∧
      (value.truthy = true ∨ value = .obj []) ∧
      Agree (normalizeSchema schemas value) (normalizeSchema (schemasOf data) value) := by
  obtain ⟨hfield, hschema⟩ := payloadField_mem member
  have hrel := agree_of_rel (h (payloadField member) hfield)
  rw [fieldOf_schema hschema, fieldOf_schema hschema, hrebuilt.payload] at hrel
  obtain ⟨value, hvalue⟩ : ∃ value, Entries.get? (payloadField member) entry = some value := by
    cases hget : Entries.get? (payloadField member) entry with
    | none =>
        rw [hget] at hrel
        exact absurd (hrel.1.mpr rfl) (by simp)
    | some value => exact ⟨value, rfl⟩
  have hagree := hrel.2 _ _ rfl (by rw [hvalue]; rfl)
  have hkept : value.truthy = true ∨ value = .obj [] := by
    by_contra hnot
    obtain ⟨hfalsy, hne⟩ := not_or.mp hnot
    rw [orEmpty_of_falsy (by simpa [getField_of_get? hvalue] using hfalsy),
      normalizeSchema_of_falsy (by simpa using hfalsy) hne] at hagree
    obtain ⟨v, w, hv, hw, hsame⟩ := hagree
    cases hw
    rw [normalizeSchema, normalize, normalizeWithin_open] at hv
    cases hv
    exact hne (canonical_eq_empty hsame)
  rw [(orEmpty_of_get? hvalue).mpr hkept] at hagree
  exact ⟨value, hvalue, hkept, hagree⟩

end Agreement

theorem survives_of_agree (hrebuilt : Rebuilt member entry raw) (hentry : (Json.obj entry).Distinct)
    (hschemas : dictOf (Json.orElse (rawSchemas data) (.obj [])) = .ok schemas)
    (h : ∀ name ∈ entryFields member,
      Option.Rel Agree (fieldOf schemas raw name) (fieldOf (schemasOf data) entry name)) :
    Survives data member entry := by
  obtain ⟨value, hvalue, hkept, hagree⟩ := payload_of_agree h hrebuilt
  refine ⟨version_of_agree h hrebuilt, fun hmember other hother => mappings_of_agree h hrebuilt hmember hother,
    ⟨value, hvalue, hkept⟩, response_of_agree h hrebuilt, ?_⟩
  intro name hname hfields other hother
  have hdistinct := Json.distinct_get? hentry hother
  rcases field_cases hfields with rfl | rfl | ⟨rfl, -⟩ | rfl | ⟨rfl, hmember⟩
  · exact absurd hname (by decide)
  · exact absurd hname (by decide)
  · exact absurd hname (by decide)
  · rw [hvalue] at hother
    cases hother
    exact namesNothing_of_agree hdistinct hschemas hagree
  · have hrel := agree_of_rel (h "response" hfields)
    rw [fieldOf_schema (by decide), fieldOf_schema (by decide), hrebuilt.response hmember,
      present_getField.mpr (response_of_agree h hrebuilt hmember), hother] at hrel
    exact namesNothing_of_agree hdistinct hschemas (hrel.2 _ _ rfl rfl)

end Entries

section Versions

theorem countP_le_of_imp {α : Type} {p : α → Bool} {as bs : List α}
    (h : List.Forall₂ (fun a b => p a = true → p b = true) as bs) : as.countP p ≤ bs.countP p := by
  induction h with
  | nil => simp
  | @cons a b _ _ hhead _ ih =>
      rw [List.countP_cons, List.countP_cons]
      by_cases ha : p a = true
      · rw [if_pos ha, if_pos (hhead ha)]
        omega
      · rw [if_neg ha]
        omega

theorem forall₂_and {α β : Type} {R S : α → β → Prop} {as : List α} {bs : List β} (h : List.Forall₂ R as bs)
    (h' : List.Forall₂ S as bs) : List.Forall₂ (fun a b => R a b ∧ S a b) as bs := by
  induction h with
  | nil => exact .nil
  | cons hhead _ ih =>
      cases h' with
      | cons hhead' htail' => exact .cons ⟨hhead, hhead'⟩ (ih htail')

-- Among as many, what holds on the left holds on the right only there.
theorem imp_of_countP_eq {α : Type} {p : α → Bool} {as bs : List α}
    (h : List.Forall₂ (fun a b => p a = true → p b = true) as bs) (hcount : as.countP p = bs.countP p) :
    List.Forall₂ (fun a b => p b = true → p a = true) as bs := by
  induction h with
  | nil => exact .nil
  | @cons a b _ _ hhead htail ih =>
      have hle := countP_le_of_imp htail
      rw [List.countP_cons, List.countP_cons] at hcount
      by_cases ha : p a = true
      · rw [if_pos ha, if_pos (hhead ha)] at hcount
        exact .cons (fun _ => ha) (ih (by omega))
      · rw [if_neg ha] at hcount
        by_cases hb : p b = true
        · rw [if_pos hb] at hcount
          omega
        · rw [if_neg hb] at hcount
          exact .cons (fun hb' => absurd hb' hb) (ih (by omega))

def hasVersion (entry : Fields) : Bool := (Entries.get? ("version" : Str) entry).isSome

theorem countP_of_forall₂ {α β : Type} {p : α → Bool} {q : β → Bool} {as : List α} {bs : List β}
    (h : List.Forall₂ (fun a b => p a = q b) as bs) : as.countP p = bs.countP q := by
  induction h with
  | nil => rfl
  | cons hhead _ ih => rw [List.countP_cons, List.countP_cons, ih, hhead]

theorem hasVersion_of_canonical {p q : Fields} (h : (Json.obj p).canonical = (Json.obj q).canonical) :
    hasVersion p = hasVersion q := by
  have hget := congrArg Option.isSome (Json.get?_of_canonical h "version")
  rw [Option.isSome_map, Option.isSome_map] at hget
  exact hget

variable [UnicodeData] {catalogue : Fields} {member : Member}

-- Projecting keeps the number of entries that have a version.
theorem countP_projectEntries {listed : List Fields} {v : Json}
    (h : projectEntries catalogue member listed = .ok v) :
    ∃ sorted : List Fields, v = .arr (sorted.map .obj) ∧
      sorted.countP hasVersion = listed.countP hasVersion := by
  obtain ⟨ps, hps, h⟩ := Except.bind_eq_ok.mp h
  obtain ⟨sorted, hsorted, h⟩ := Except.bind_eq_ok.mp h
  cases h
  have hperm := sortedBy_perm hsorted
  refine ⟨sorted, rfl, ?_⟩
  rw [hperm.countP_eq]
  symm
  apply countP_of_forall₂
  apply (Except.mapM_eq_ok.mp hps).imp
  intro entry p hok
  rw [hasVersion, hasVersion, (samePlace_projectEntry hok).version]

theorem countP_of_agree {catalogue' : Fields} {listed listed' : List Fields}
    (h : Agree (projectEntries catalogue member listed) (projectEntries catalogue' member listed')) :
    listed.countP hasVersion = listed'.countP hasVersion := by
  obtain ⟨v, w, hv, hw, hsame⟩ := h
  obtain ⟨ps, rfl, hps⟩ := countP_projectEntries hv
  obtain ⟨qs, rfl, hqs⟩ := countP_projectEntries hw
  rw [Json.canonical_arr, Json.canonical_arr, List.map_map, List.map_map] at hsame
  rw [← hps, ← hqs]
  apply countP_of_forall₂
  have hall : List.Forall₂ (fun p q => (Json.obj p).canonical = (Json.obj q).canonical) ps qs := by
    have heq : List.Forall₂ (· = ·) (ps.map fun p => (Json.obj p).canonical)
        (qs.map fun q => (Json.obj q).canonical) := List.forall₂_eq_eq_eq ▸ Json.arr.inj hsame
    rw [List.forall₂_map_left_iff, List.forall₂_map_right_iff] at heq
    exact heq
  exact hall.imp fun p q h => hasVersion_of_canonical h

end Versions

section Documents

variable [UnicodeData] {data : Fields} {document : ContractDocument} {entries : Member → List Fields}

theorem Parsed.rawSchemas (h : Parsed data document entries) :
    dictOf (Json.orElse (Contract.rawSchemas data) (.obj [])) = .ok document.schemas := by
  obtain ⟨raw, hraw, hschemas⟩ := h.schemas
  rw [← rawSchemas_eq hraw]
  exact hschemas

theorem Parsed.inDomain (h : Parsed data document entries) (member : Member) :
    ∀ entry ∈ entries member, InDomain entry := (domainEntries_ok (h.domain member)).2

theorem Parsed.rebuilt (h : Parsed data document entries) (member : Member) :
    List.Forall₂ (Rebuilt member) (entries member) (document.rawEntries member) := by
  have hdomain := h.inDomain member
  cases member with
  | requests =>
      unfold ContractDocument.rawEntries
      rw [List.forall₂_map_right_iff]
      have hboth := (List.forall₂_and_left _ _).mpr ⟨hdomain, h.requests⟩
      exact hboth.imp fun entry r h => rebuilt_request h.1 h.2
  | events =>
      unfold ContractDocument.rawEntries
      rw [h.events, List.map_map, List.forall₂_map_right_iff, List.forall₂_same]
      exact fun entry hentry => rebuilt_event (hdomain entry hentry)
  | sends =>
      unfold ContractDocument.rawEntries
      rw [h.sends, List.map_map, List.forall₂_map_right_iff, List.forall₂_same]
      exact fun entry hentry => rebuilt_send (hdomain entry hentry)

theorem Parsed.projectMember_eq (h : Parsed data document entries) (member : Member) :
    projectMember data member = projectEntries (schemasOf data) member (entries member) := by
  unfold projectMember
  rw [(domainEntries_ok (h.domain member)).1]
  rfl

theorem Rebuilt.unreserved {member : Member} {entry raw : Fields} (h : Rebuilt member entry raw)
    (hdomain : InDomain entry) : isReserved raw = false := by
  obtain ⟨topic, hget, hreserved⟩ := hdomain
  rw [isReserved_eq (h.topic.trans hget)]
  exact hreserved

theorem Parsed.projectMember_raw (h : Parsed data document entries) (member : Member) :
    projectMember (toRawDocument document) member =
      projectEntries document.schemas member (document.rawEntries member) := by
  rw [projectMember_toRawDocument, List.filter_eq_self.mpr]
  intro raw hraw
  obtain ⟨entry, hentry, hrebuilt⟩ := exists_of_mem_right (h.rebuilt member) hraw
  simp [hrebuilt.unreserved (h.inDomain member entry hentry)]

theorem Parsed.mem_entries (h : Parsed data document entries) {member : Member} {entry : Fields} :
    entry ∈ entries member ↔ (∃ values, Json.getField data member.key = .arr values ∧ .obj entry ∈ values) ∧
      isReserved entry = false := by
  obtain ⟨items, hitems, hkepts⟩ := Except.bind_eq_ok.mp (h.domain member)
  have hlisted := (domainEntries_ok (h.domain member)).1
  unfold listedEntries mappings at hlisted
  rw [hitems] at hlisted
  have hentries : (items.filterMap mapping?).filter (fun entry => !isReserved entry) = entries member :=
    Except.ok.inj hlisted
  have hmapping : ∀ item, mapping? item = some entry ↔ item = .obj entry := by
    intro item
    cases item <;> simp [mapping?]
  rw [← hentries, List.mem_filter, List.mem_filterMap]
  simp only [hmapping, exists_eq_right, mem_iter_obj hitems, Bool.not_eq_true']

-- Every entry that the projection lists is written as it was read.
def AllSurvive (data : Fields) (members : List Member) : Prop :=
  ∀ member ∈ members, ∀ values, Json.getField data member.key = .arr values →
    ∀ entry, .obj entry ∈ values → isReserved entry = false → Survives data member entry

theorem Parsed.projection_eq (h : Parsed data document entries) (hsound : document.Sound) {members : List Member}
    (hall : AllSurvive data members) :
    projection (toRawDocument document) members = projection data members := by
  induction members with
  | nil => rfl
  | cons member rest ih =>
      have hentries : projectMember (toRawDocument document) member = projectMember data member := by
        rw [h.projectMember_raw, h.projectMember_eq]
        apply projectEntries_congr
        have hboth := (List.forall₂_and_left _ _).mpr ⟨fun entry hentry => hentry, h.rebuilt member⟩
        apply (List.Forall₂.imp _ hboth).flip
        intro entry raw ⟨hentry, hrebuilt⟩
        obtain ⟨⟨values, hvalues, hmem⟩, hreserved⟩ := h.mem_entries.mp hentry
        have hsurvives := hall member List.mem_cons_self values hvalues entry hmem hreserved
        exact projectEntry_congr fun name hname =>
          fieldOf_rebuilt hrebuilt hsurvives hsound.schemas h.rawSchemas hname
      have hrest := ih fun other hm => hall other (List.mem_cons_of_mem _ hm)
      simp only [projection, hentries, hrest]

theorem Parsed.survives_of_projectMember (h : Parsed data document entries) (hdata : (Json.obj data).Distinct)
    {member : Member} (hagree : Agree (projectMember (toRawDocument document) member) (projectMember data member)) :
    ∀ entry ∈ entries member, Survives data member entry := by
  rw [h.projectMember_raw, h.projectMember_eq] at hagree
  have hrebuilt := h.rebuilt member
  -- As many entries have a version, so that none lost one, and both lists sort alike.
  have hversions : List.Forall₂ (fun raw entry => hasVersion entry = true → hasVersion raw = true)
      (document.rawEntries member) (entries member) := by
    apply imp_of_countP_eq _ (countP_of_agree hagree)
    apply hrebuilt.flip.imp
    intro raw entry hentry
    unfold hasVersion
    rw [hentry.version]
    exact present_isSome
  have hplaces : List.Forall₂ SamePlace (document.rawEntries member) (entries member) := by
    have hboth := forall₂_and hrebuilt.flip hversions
    apply hboth.imp
    intro raw entry ⟨hentry, hversion⟩
    refine ⟨hentry.topic, ?_⟩
    rw [hentry.version]
    apply present_getField.mpr
    intro hnull
    unfold hasVersion at hversion
    rw [hentry.version, getField_of_get? hnull, hnull] at hversion
    exact absurd (hversion rfl) (by decide)
  have hall := forall₂_and hrebuilt.flip (projectEntries_agree hplaces hagree)
  intro entry hentry
  obtain ⟨raw, -, hraw, p, q, hp, hq, hsame⟩ := exists_of_mem_right hall hentry
  have hdistinct := domainEntries_distinct hdata (h.domain member) entry hentry
  exact survives_of_agree hraw hdistinct h.rawSchemas
    (projectEntry_agree (nodup_entryFields member) hp hq hsame)

theorem Parsed.allSurvive (h : Parsed data document entries) (hdata : (Json.obj data).Distinct)
    {members : List Member} (hagree : ∀ member ∈ members,
      Agree (projectMember (toRawDocument document) member) (projectMember data member)) :
    AllSurvive data members := by
  intro member hmember values hvalues entry hentry hreserved
  apply h.survives_of_projectMember hdata (hagree member hmember)
  exact h.mem_entries.mpr ⟨⟨values, hvalues, hentry⟩, hreserved⟩

-- A document that was parsed and written again has its hashes if, and as far as it has
-- any only if, its entries are written as they were read.
theorem roundTrip_hashes (hdata : (Json.obj data).Distinct) (hparse : parseDocument (.obj data) = .ok document) :
    (AllSurvive data [.requests, .events] →
      ∀ hash, contractHash hash (toRawDocument document) = contractHash hash data) ∧
    (AllSurvive data [.requests, .events, .sends] →
      ∀ hash, registrationHash hash (toRawDocument document) = registrationHash hash data) ∧
    (∀ p, projection data [.requests, .events] = .ok p →
      (∀ hash, contractHash hash (toRawDocument document) = contractHash hash data) →
        AllSurvive data [.requests, .events]) ∧
    ∀ p, projection data [.requests, .events, .sends] = .ok p →
      (∀ hash, registrationHash hash (toRawDocument document) = registrationHash hash data) →
        AllSurvive data [.requests, .events, .sends] := by
  have hsound := parseDocument_sound hdata hparse
  obtain ⟨entries, hparsed⟩ := parseDocument_ok hparse
  refine ⟨?_, ?_, ?_, ?_⟩
  · intro hall hash
    exact hashProjection_congr (hparsed.projection_eq hsound hall) hash
  · intro hall hash
    exact hashProjection_congr (hparsed.projection_eq hsound hall) hash
  · intro p hp hhash
    exact hparsed.allSurvive hdata (agree_of_hashes (by decide) hhash hp)
  · intro p hp hhash
    exact hparsed.allSurvive hdata (agree_of_hashes (by decide) hhash hp)

end Documents

section Samples

def oneRequest (entry : Fields) : Fields :=
  [Json.field "schemaDialect" (.str "openapi-3.0"), Json.field "requests" (.arr [.obj entry])]

def requestDocument : ContractDocument where
  schemaDialect := "openapi-3.0"
  service := ""
  serviceVersion := .null
  versionScheme := .null
  description := .null
  requests := [⟨.str "order", .obj [], .null, .null, []⟩]
  events := []
  sends := []
  schemas := []
  messageEndpoint := .null
  transports := []
  contractHash := .null
  registrationHash := .null

def orderPayload : Json := .obj [Json.field "$ref" (.str "#/components/schemas/Order")]

def textSchema : Json := .obj [Json.field "type" (.str "string")]

def nestedSchema : Json := .obj [Json.field "properties" (.obj [Json.field "amends" orderPayload])]

-- A service with one entry of each kind, over a component that refers to itself.
def placeRequest : Fields :=
  [Json.field "topic" (.str "order:place"), Json.field "version" (.str "2"),
    Json.field "httpMappings" (.arr [.obj [Json.field "method" (.str "POST"), Json.field "path" (.str "/orders")]]),
    Json.field "request" orderPayload, Json.field "response" textSchema]

def placedEvent : Fields :=
  [Json.field "topic" (.str "order:placed"), Json.field "version" (.str "1"), Json.field "message" orderPayload]

def paymentSend : Fields :=
  [Json.field "topic" (.str "payment:take"), Json.field "request" textSchema, Json.field "response" textSchema]

def ordersService : Fields :=
  [Json.field "schemaDialect" (.str "openapi-3.0"), Json.field "service" (.str "orders"),
    Json.field "requests" (.arr [.obj placeRequest]), Json.field "events" (.arr [.obj placedEvent]),
    Json.field "sends" (.arr [.obj paymentSend]),
    Json.field "components" (.obj [Json.field "schemas" (.obj [Json.field "Order" nestedSchema])])]

def ordersContract : ContractDocument where
  schemaDialect := "openapi-3.0"
  service := "orders"
  serviceVersion := .null
  versionScheme := .null
  description := .null
  requests := [⟨.str "order:place", orderPayload, textSchema, .str "2", [⟨.str "POST", .str "/orders"⟩]⟩]
  events := [⟨.str "order:placed", orderPayload, .str "1"⟩]
  sends := [⟨.str "payment:take", textSchema, textSchema, .null⟩]
  schemas := [Json.field "Order" nestedSchema]
  messageEndpoint := .null
  transports := []
  contractHash := .null
  registrationHash := .null

theorem namesNothing_ordersService (schema : Json) : letI := UnicodeData.ascii
    NamesNothing ordersService schema := by
  intro pairs schemas hpairs
  cases hpairs

theorem allSurvive_ordersService : letI := UnicodeData.ascii
    AllSurvive ordersService [.requests, .events, .sends] := by
  let _ := UnicodeData.ascii
  intro member _ values hvalues entry hentry _
  cases member with
  | requests =>
      cases hvalues
      cases List.mem_singleton.mp hentry
      refine ⟨by decide, ?_, ⟨_, rfl, by decide⟩, fun _ => by decide, fun _ _ _ _ _ => namesNothing_ordersService _⟩
      intro _ value hvalue
      cases hvalue
      rfl
  | events =>
      cases hvalues
      cases List.mem_singleton.mp hentry
      exact ⟨by decide, nofun, ⟨_, rfl, by decide⟩, fun h => absurd rfl h,
        fun _ _ _ _ _ => namesNothing_ordersService _⟩
  | sends =>
      cases hvalues
      cases List.mem_singleton.mp hentry
      exact ⟨by decide, nofun, ⟨_, rfl, by decide⟩, fun _ => by decide, fun _ _ _ _ _ => namesNothing_ordersService _⟩

theorem roundTrip_hashes_orders : letI := UnicodeData.ascii
    (∀ hash, contractHash hash (toRawDocument ordersContract) = contractHash hash ordersService) ∧
      ∀ hash, registrationHash hash (toRawDocument ordersContract) = registrationHash hash ordersService := by
  let _ := UnicodeData.ascii
  have hdistinct : (Json.obj ordersService).Distinct := by
    simp [ordersService, placeRequest, placedEvent, paymentSend, orderPayload, textSchema, nestedSchema,
      Json.Distinct, Json.DistinctFields, Json.DistinctItems]
  have hsurvive := allSurvive_ordersService
  have hcontract : AllSurvive ordersService [.requests, .events] :=
    fun member hmember => hsurvive member (by revert hmember; cases member <;> decide)
  have h := roundTrip_hashes hdistinct (show parseDocument (.obj ordersService) = .ok ordersContract from rfl)
  exact ⟨h.1 hcontract, h.2.1 hsurvive⟩

def emptyMappings : Fields :=
  [Json.field "topic" (.str "order"), Json.field "httpMappings" (.arr []), Json.field "request" (.obj [])]

-- An empty list of mappings is hashed, and is not written again.
theorem not_roundTrip_hashes : letI := UnicodeData.ascii
    parseDocument (.obj (oneRequest emptyMappings)) = .ok requestDocument ∧
      ¬∀ hash, contractHash hash (toRawDocument requestDocument) =
        contractHash hash (oneRequest emptyMappings) := by
  refine ⟨rfl, ?_⟩
  intro h
  have hhash := h fun value => let _ := UnicodeData.ascii; .ok value.repr
  exact absurd hhash (by decide +kernel)

end Samples

end Benzene.Contract
