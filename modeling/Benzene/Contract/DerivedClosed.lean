import Benzene.Contract.Closure
import Benzene.Contract.Contexts

namespace Benzene.Contract.Derivation

open Benzene.Data
open Benzene.Mesh (Member)

section References

-- Somewhere in a value there is a reference.
inductive Mentions (ref : Str) : Json → Prop
  | own {fields : Fields} (hmem : Json.field "$ref" (.str ref) ∈ fields) : Mentions ref (.obj fields)
  | member {fields : Fields} {field : Str × Json} (hmem : field ∈ fields) (h : Mentions ref field.2) :
      Mentions ref (.obj fields)
  | item {items : List Json} {item : Json} (hmem : item ∈ items) (h : Mentions ref item) : Mentions ref (.arr items)

variable {ref : Str}

theorem mentions_obj {fields : Fields} (h : Mentions ref (.obj fields)) :
    Json.field "$ref" (.str ref) ∈ fields ∨ ∃ field ∈ fields, Mentions ref field.2 := by
  cases h with
  | own hmem => exact .inl hmem
  | member hmem h => exact .inr ⟨_, hmem, h⟩

theorem not_mentions_str {text : Str} : ¬Mentions ref (.str text) := by
  intro h
  cases h

theorem not_mentions_bool {b : Bool} : ¬Mentions ref (.bool b) := by
  intro h
  cases h

theorem not_mentions_strs {texts : List Str} : ¬Mentions ref (.arr (texts.map .str)) := by
  intro h
  cases h with
  | item hmem h =>
      obtain ⟨text, -, rfl⟩ := List.mem_map.mp hmem
      exact not_mentions_str h

theorem not_mentions_scalars {values : List Scalar} : ¬Mentions ref (.arr (values.map Scalar.toJson)) := by
  intro h
  cases h with
  | item hmem h =>
      obtain ⟨value, -, rfl⟩ := List.mem_map.mp hmem
      cases value <;> cases h

-- An object with no reference of its own, none of whose members holds one.
theorem not_mentions {fields : Fields} (hkeys : ("$ref" : Str) ∉ Entries.keys fields)
    (h : ∀ field ∈ fields, ¬Mentions ref field.2) : ¬Mentions ref (.obj fields) := by
  intro hmentions
  rcases mentions_obj hmentions with hmem | ⟨field, hmem, hfield⟩
  · exact hkeys (List.mem_map_of_mem (f := Prod.fst) hmem)
  · exact h field hmem hfield

theorem not_mentions_typed (name : Str) : ¬Mentions ref (.obj (typed name)) := by
  apply not_mentions (by simp [typed])
  intro field hfield
  cases List.mem_singleton.mp hfield
  exact not_mentions_str

theorem not_mentions_formatted (name format : Str) : ¬Mentions ref (.obj (formatted name format)) := by
  apply not_mentions (by simp [formatted])
  intro field hfield
  rcases List.mem_pair.mp hfield with rfl | rfl <;> exact not_mentions_str

theorem not_mentions_empty : ¬Mentions ref (.obj []) := not_mentions (by simp) (by simp)

theorem not_mentions_enum (name : Str) (values : List Scalar) : ¬Mentions ref (.obj (enumSchema name values)) := by
  apply not_mentions (by simp [enumSchema])
  intro field hfield
  rcases List.mem_pair.mp hfield with rfl | rfl
  · exact not_mentions_str
  · exact not_mentions_scalars

theorem not_mentions_leaf {schema : Fields} (h : Leaf schema) : ¬Mentions ref (.obj schema) := by
  cases h with
  | any => exact not_mentions_empty
  | array =>
      apply not_mentions (by simp [arraySchema])
      intro field hfield
      rcases List.mem_pair.mp hfield with rfl | rfl
      · exact not_mentions_str
      · exact not_mentions_empty
  | map =>
      apply not_mentions (by simp [mapSchema])
      intro field hfield
      rcases List.mem_pair.mp hfield with rfl | rfl
      · exact not_mentions_str
      · exact not_mentions_empty
  | primitive primitive =>
      cases primitive with
      | bool | int | str | time | decimal => exact not_mentions_typed _
      | float | bytes | datetime | date | timedelta | uuid => exact not_mentions_formatted _ _
  | path => exact not_mentions_typed _
  | literal name scalars nullable =>
      intro h
      rcases mentions_obj h with hmem | ⟨field, hmem, hfield⟩
      · cases nullable <;> simp [literalOf, enumSchema, Json.fieldIf] at hmem
      · rcases List.mem_append.mp hmem with hmem | hmem
        · exact not_mentions_enum name scalars (.member hmem hfield)
        · cases nullable with
          | false => cases hmem
          | true =>
              cases List.mem_singleton.mp hmem
              exact not_mentions_bool hfield

theorem mentions_set_nullable {fields : Fields} (h : Mentions ref (.obj (Entries.set "nullable" (.bool true) fields))) :
    Mentions ref (.obj fields) := by
  rcases mentions_obj h with hmem | ⟨field, hmem, hfield⟩
  · rcases Entries.mem_set hmem with heq | hmem
    · simp at heq
    · exact .own hmem
  · rcases Entries.mem_set hmem with rfl | hmem
    · exact absurd hfield not_mentions_bool
    · exact .member hmem hfield

theorem mentions_apply {fields : Fields} {wrap : Wrap} (h : Mentions ref (.obj (wrap.apply fields))) :
    Mentions ref (.obj fields) := by
  cases wrap with
  | same => exact h
  | array =>
      rcases mentions_obj h with hmem | ⟨field, hmem, hfield⟩
      · simp [Wrap.apply, arraySchema] at hmem
      · rcases List.mem_pair.mp hmem with rfl | rfl
        · exact absurd hfield not_mentions_str
        · exact hfield
  | map =>
      rcases mentions_obj h with hmem | ⟨field, hmem, hfield⟩
      · simp [Wrap.apply, mapSchema] at hmem
      · rcases List.mem_pair.mp hmem with rfl | rfl
        · exact absurd hfield not_mentions_str
        · exact hfield
  | nullable refType =>
      change Mentions ref (.obj (nullable fields refType)) at h
      unfold nullable at h
      split at h
      · exact h
      · split at h
        · split at h
          · rcases mentions_obj h with hmem | ⟨field, hmem, hfield⟩
            · simp at hmem
            · simp only [List.mem_cons, List.not_mem_nil, or_false] at hmem
              rcases hmem with rfl | rfl | rfl
              · exact absurd hfield not_mentions_str
              · exact absurd hfield not_mentions_bool
              · cases hfield with
                | item hmem h =>
                    cases List.mem_singleton.mp hmem
                    exact h
          · exact mentions_set_nullable h
        · exact mentions_set_nullable h

variable {program : Program} {called : PyType → Str}

theorem mentions_outline {context : Context} {pyType : PyType} {outline : Outline}
    (h : Describes program context pyType outline) (hmentions : Mentions ref (.obj (outline.write called))) :
    ∃ key ∈ outline.ending.keys, ref = schemaRefPrefix ++ called key := by
  induction h with
  | schema hrule => exact absurd hmentions (not_mentions_leaf (rule_leaf hrule))
  | @component _ _ key hrule =>
      refine ⟨key, List.mem_singleton_self _, ?_⟩
      rcases mentions_obj hmentions with hmem | ⟨field, hmem, hfield⟩
      · have heq := congrArg Prod.snd (List.mem_singleton.mp hmem)
        exact Json.str.inj heq
      · cases List.mem_singleton.mp hmem
        exact absurd hfield not_mentions_str
  | within _ _ ih => exact ih (mentions_apply hmentions)

theorem mentions_property {context : Context} {property : Property} {described : Property × Outline}
    (h : DescribesProperty program context property described)
    (hmentions : Mentions ref (.obj (described.2.write called))) :
    ∃ key ∈ described.2.ending.keys, ref = schemaRefPrefix ++ called key := by
  obtain ⟨-, h⟩ := h
  cases htype : property.pyType with
  | none =>
      rw [htype] at h
      rw [h] at hmentions
      exact absurd hmentions not_mentions_empty
  | some pyType =>
      rw [htype] at h
      exact mentions_outline h hmentions

theorem mentions_record {properties : Fields} {required : List Str}
    (hobjects : ∀ property ∈ properties, ∃ fields, property.2 = .obj fields)
    (h : Mentions ref (.obj (recordSchema properties required))) :
    ∃ property ∈ properties, Mentions ref property.2 := by
  rcases mentions_obj h with hmem | ⟨field, hmem, hfield⟩
  · by_cases hrequired : required = [] <;> simp [recordSchema, Json.fieldIf, hrequired] at hmem
  · rcases List.mem_append.mp hmem with hmem | hmem
    · rcases List.mem_pair.mp hmem with rfl | rfl
      · exact absurd hfield not_mentions_str
      · rcases mentions_obj hfield with hmem | ⟨property, hmem, hproperty⟩
        · rcases Entries.mem_update hmem with hmem | hmem
          · cases hmem
          · obtain ⟨fields, hfields⟩ := hobjects _ hmem
            cases hfields
        · rcases Entries.mem_update hmem with hmem | hmem
          · cases hmem
          · exact ⟨property, hmem, hproperty⟩
    · by_cases hrequired : required = []
      · simp [Json.fieldIf, hrequired] at hmem
      · simp only [Json.fieldIf, hrequired, ne_eq, not_false_eq_true, decide_true, if_true, List.mem_singleton] at hmem
        subst hmem
        exact absurd hfield not_mentions_strs

theorem mentions_blueprint [UnicodeData] {context : Context} {key : PyType} {blueprint : Blueprint}
    (h : DescribesContent program (content program context key) blueprint)
    (hmentions : Mentions ref (.obj (blueprint.derived called).1)) :
    ∃ key ∈ blueprint.keys, ref = schemaRefPrefix ++ called key := by
  generalize hcontent : content program context key = derivedContent at h
  cases h with
  | schema schema =>
      cases content_leaf hcontent with
      | any => exact absurd hmentions not_mentions_empty
      | values name values => exact absurd hmentions (not_mentions_enum name values)
  | @record inner properties described h =>
      obtain ⟨member, hmember, hmentions⟩ := mentions_record (by
        intro member hmember
        obtain ⟨property, -, rfl⟩ := List.mem_map.mp hmember
        exact ⟨_, rfl⟩) hmentions
      rw [List.map_map] at hmember
      obtain ⟨property, hproperty, rfl⟩ := List.mem_map.mp hmember
      obtain ⟨source, -, hdescribes⟩ := exists_of_mem_right h hproperty
      obtain ⟨other, hother, href⟩ := mentions_property hdescribes hmentions
      exact ⟨other, List.mem_flatMap.mpr ⟨property, hproperty, hother⟩, href⟩

end References

section Characters

theorem isNameChar_validName (name : Str) : ∀ c ∈ validName name, isNameChar c = true := by
  intro c hc
  exact (List.mem_filter.mp hc).2

theorem isNameChar_orSchema {name : Str} (h : ∀ c ∈ name, isNameChar c = true) :
    ∀ c ∈ orSchema name, isNameChar c = true := by
  unfold orSchema
  split
  · exact List.all_eq_true.mp (by decide)
  · exact h

variable [UnicodeData] (program : Program)

theorem isNameChar_className (depth : Nat) (id : ClassId) : ∀ c ∈ className program depth id, isNameChar c = true := by
  cases depth with
  | zero => exact isNameChar_orSchema (isNameChar_validName _)
  | succ depth =>
      unfold className
      split <;> exact isNameChar_orSchema (isNameChar_validName _)

-- A component's name is written in the characters of names only.
theorem isNameChar_componentName (key : PyType) : ∀ c ∈ componentName program key, isNameChar c = true := by
  unfold componentName
  split
  · exact isNameChar_className program _ _
  · exact isNameChar_orSchema (isNameChar_validName _)
  · exact List.all_eq_true.mp (by decide)

theorem not_marked_componentName (key : PyType) : ¬(componentName program key).startsWith tokenMark := by
  intro h
  obtain ⟨rest, hrest⟩ := List.isPrefixOf_iff_prefix.mp h
  have hmem : (⟨0, by decide⟩ : CodePoint) ∈ componentName program key := by
    rw [← hrest]
    exact List.mem_cons_self
  have hchar := isNameChar_componentName program key _ hmem
  revert hchar
  decide

end Characters

section Closed

variable [UnicodeData] {program : Program} {fuel : Nat} {mappings : Str × Str → List (Str × Str)}
  {registrations : Registrations} {document : Document} {components : List Component}
  {outlined : Member → List Outlined}

theorem keys_schemas {entryRefs : EntryRefs} {schemas : Fields} (h : finish components entryRefs = .ok schemas) :
    Entries.keys schemas = groupNames components := by
  have hforall := finish_ok h
  clear h
  unfold Entries.keys
  generalize groupNames components = names at hforall ⊢
  induction hforall with
  | nil => rfl
  | cons hfirst _ ih => rw [List.map_cons, hfirst.1, ih]

theorem mem_keys_schemas {entryRefs : EntryRefs} {schemas : Fields} (h : finish components entryRefs = .ok schemas)
    {name : Str} : name ∈ Entries.keys schemas ↔ ∃ component ∈ components, component.name = name := by
  rw [keys_schemas h, mem_groupNames]

def Document.entries (document : Document) : List Entry := document.requests ++ document.events ++ document.sends

def Entry.schemas (entry : Entry) : List Json := entry.payload :: entry.response.toList

theorem Catalogued.mentions_entry {listed : Str × Str → List (Str × Str)}
    (h : Catalogued program registrations components outlined) {member : Member} {entry : Entry}
    (hentry : entry ∈ sortEntries ((outlined member).map (Outlined.entry (componentName program) listed)))
    {schema : Json} (hschema : schema ∈ entry.schemas) {ref : Str} (hmentions : Mentions ref schema) :
    ∃ key ∈ keysOf components, ref = schemaRefPrefix ++ componentName program key := by
  rw [sortEntries, (sortOn_perm _ _).mem_iff] at hentry
  obtain ⟨source, hsource, rfl⟩ := List.mem_map.mp hentry
  obtain ⟨declared, -, hdescribes⟩ := exists_of_mem_right (h.entries member) hsource
  have hkeys : ∀ key ∈ source.keys, key ∈ keysOf components := fun key hkey =>
    h.keys member key (List.mem_flatMap.mpr ⟨source, hsource, hkey⟩)
  rcases List.mem_cons.mp hschema with rfl | hschema
  · obtain ⟨key, hkey, href⟩ := mentions_outline hdescribes.payload hmentions
    exact ⟨key, hkeys key (List.mem_append_left _ hkey), href⟩
  · obtain ⟨outline, houtline, rfl⟩ := Option.map_eq_some_iff.mp (Option.mem_toList.mp hschema)
    have hresponse := hdescribes.response
    rw [houtline] at hresponse
    generalize declared.response = response at hresponse
    cases hresponse with
    | some hdescribesResponse =>
        obtain ⟨key, hkey, href⟩ := mentions_outline hdescribesResponse hmentions
        refine ⟨key, hkeys key (List.mem_append_right _ ?_), href⟩
        rw [houtline]
        exact hkey

omit [UnicodeData] in
theorem not_mentions_mappings {ref : Str} (mappings : List (Str × Str)) :
    ¬Mentions ref (.arr (mappings.map mappingPayload)) := by
  intro h
  cases h with
  | item hmem h =>
      obtain ⟨mapping, -, rfl⟩ := List.mem_map.mp hmem
      rcases mentions_obj h with hmem | ⟨field, hmem, hfield⟩
      · simp at hmem
      · rcases List.mem_pair.mp hmem with rfl | rfl <;> exact not_mentions_str hfield

omit [UnicodeData] in
theorem mentions_payload {name ref : Str} (hname : name ≠ "$ref") {entry : Entry}
    (h : Mentions ref (entry.toPayload name)) : ∃ schema ∈ entry.schemas, Mentions ref schema := by
  obtain ⟨topic, version, payload, response, httpMappings⟩ := entry
  rcases mentions_obj h with hmem | ⟨field, hmem, hfield⟩
  · exfalso
    by_cases hversion : version = [] <;> by_cases hmappings : httpMappings = [] <;> cases response <;>
      simp [Json.fieldIf, hversion, hmappings, Ne.symm hname] at hmem
  · simp only [List.mem_append, List.mem_singleton] at hmem
    rcases hmem with (((rfl | hmem) | hmem) | rfl) | hmem
    · exact absurd hfield not_mentions_str
    · by_cases hversion : version = []
      · simp [Json.fieldIf, hversion] at hmem
      · simp only [Json.fieldIf, hversion, ne_eq, not_false_eq_true, decide_true, if_true, List.mem_singleton] at hmem
        subst hmem
        exact absurd hfield not_mentions_str
    · by_cases hmappings : httpMappings = []
      · simp [Json.fieldIf, hmappings] at hmem
      · simp only [Json.fieldIf, hmappings, ne_eq, not_false_eq_true, decide_true, if_true, List.mem_singleton] at hmem
        subst hmem
        exact absurd hfield (not_mentions_mappings httpMappings)
    · exact ⟨payload, List.mem_cons_self, hfield⟩
    · obtain ⟨schema, hschema, rfl⟩ := List.mem_map.mp hmem
      exact ⟨schema, List.mem_cons_of_mem _ hschema, hfield⟩

omit [UnicodeData] in
theorem mentions_body {ref : Str} (hobjects : ∀ schema ∈ document.schemas, ∃ fields, schema.2 = .obj fields)
    (h : Mentions ref (.obj document.body)) :
    (∃ entry ∈ document.entries, ∃ schema ∈ entry.schemas, Mentions ref schema) ∨
      ∃ schema ∈ document.schemas, Mentions ref schema.2 := by
  have hentries : ∀ {entries : List Entry} {name : Str}, name ≠ "$ref" → (∀ entry ∈ entries, entry ∈ document.entries) →
      Mentions ref (.arr (entries.map (Entry.toPayload name))) →
      ∃ entry ∈ document.entries, ∃ schema ∈ entry.schemas, Mentions ref schema := by
    intro entries name hname hsub h
    cases h with
    | item hmem h =>
        obtain ⟨entry, hentry, rfl⟩ := List.mem_map.mp hmem
        exact ⟨entry, hsub entry hentry, mentions_payload hname h⟩
  rcases mentions_obj h with hmem | ⟨field, hmem, hfield⟩
  · simp [Document.body] at hmem
  · simp only [Document.body, List.mem_cons, List.not_mem_nil, or_false] at hmem
    unfold Document.entries at hentries ⊢
    rcases hmem with rfl | rfl | rfl | rfl
    · exact .inl (hentries (by simp) (by simp +contextual) hfield)
    · exact .inl (hentries (by simp) (by simp +contextual) hfield)
    · exact .inl (hentries (by simp) (by simp +contextual) hfield)
    · rcases mentions_obj hfield with hmem | ⟨field, hmem, hfield⟩
      · simp at hmem
      · cases List.mem_singleton.mp hmem
        rcases mentions_obj hfield with hmem | ⟨schema, hmem, hschema⟩
        · obtain ⟨fields, hfields⟩ := hobjects _ hmem
          cases hfields
        · exact .inr ⟨schema, hmem, hschema⟩

-- A derived document refers to its own components only, and to no placeholder.
theorem deriveDocument_closed (h : deriveDocument program fuel mappings registrations = .ok document) {ref : Str}
    (hmentions : Mentions ref (.obj document.body)) :
    ∃ name ∈ Entries.keys document.schemas, ref = schemaRefPrefix ++ name ∧ ¬name.startsWith tokenMark := by
  obtain ⟨components, outlined, hcatalogued, hfinish, hrequests, hevents, hsends⟩ := deriveDocument_ok h
  have hobjects : ∀ schema ∈ document.schemas, ∃ fields, schema.2 = .obj fields := by
    intro schema hschema
    obtain ⟨component, blueprint, -, hpublishes⟩ := hcatalogued.published hfinish hschema
    exact ⟨_, hpublishes.schema⟩
  have hfound : ∃ key ∈ keysOf components, ref = schemaRefPrefix ++ componentName program key := by
    rcases mentions_body hobjects hmentions with ⟨entry, hentry, schema, hschema, href⟩ | ⟨schema, hschema, href⟩
    · rcases List.mem_append.mp hentry with hentry | hentry
      · rcases List.mem_append.mp hentry with hentry | hentry
        · rw [hrequests] at hentry
          exact hcatalogued.mentions_entry hentry hschema href
        · rw [hevents] at hentry
          exact hcatalogued.mentions_entry hentry hschema href
      · rw [hsends] at hentry
        exact hcatalogued.mentions_entry hentry hschema href
    · obtain ⟨component, blueprint, -, hpublishes⟩ := hcatalogued.published hfinish hschema
      obtain ⟨context, pyType, -, -, hdescribes⟩ := hpublishes.met
      rw [hpublishes.schema] at href
      obtain ⟨key, hkey, href⟩ := mentions_blueprint hdescribes href
      exact ⟨key, hpublishes.keys key hkey, href⟩
  obtain ⟨key, hkey, href⟩ := hfound
  obtain ⟨component, hmem, rfl⟩ := mem_keysOf.mp hkey
  refine ⟨componentName program component.key, ?_, href, not_marked_componentName program component.key⟩
  exact (mem_keys_schemas hfinish).mpr ⟨component, hmem, (hcatalogued.adds.settled hmem).1.1⟩

-- A recursive type, taken by one handler.
def nodeProgram : Program where
  classes := [⟨"Node", "app", "Node", none, none,
    .dataclass [] [("next", .alias (.union "Optional") [.atom (.cls 0), .atom .none])] ["next"]⟩]
  aliasRepr := fun _ => []

def nodeRegistrations : Registrations := ⟨[⟨"nodes", "", .atom (.cls 0), .noPayload⟩], [], []⟩

def nodeDocument : Document where
  requests := [⟨"nodes", "", .obj (reference "Node"), none, []⟩]
  events := []
  sends := []
  schemas := [("Node", .obj (recordSchema [("next", .obj (nullable (reference "Node") (some "object")))] ["next"]))]

omit [UnicodeData] in
theorem deriveDocument_node : letI := UnicodeData.ascii
    deriveDocument nodeProgram 5 (fun _ => []) nodeRegistrations = .ok nodeDocument := by
  rfl

omit [UnicodeData] in
theorem mentions_node : Mentions (schemaRefPrefix ++ "Node") (.obj nodeDocument.body) :=
  .member List.mem_cons_self (.item List.mem_cons_self (.member
    (List.mem_append_left _ (List.mem_append_right _ List.mem_cons_self)) (.own List.mem_cons_self)))

omit [UnicodeData] in
theorem deriveDocument_closed_node : letI := UnicodeData.ascii
    deriveDocument nodeProgram 5 (fun _ => []) nodeRegistrations = .ok nodeDocument ∧
      ∃ name ∈ Entries.keys nodeDocument.schemas, schemaRefPrefix ++ "Node" = schemaRefPrefix ++ name ∧
        ¬name.startsWith tokenMark := by
  exact ⟨deriveDocument_node, @deriveDocument_closed UnicodeData.ascii _ _ _ _ _ deriveDocument_node _ mentions_node⟩

end Closed

section Reached

theorem keywordNames_set {key : Str} (hkey : key ≠ "nullable") (walked : Walked) (value : Json) (fields : Fields) :
    keywordNames key walked (Entries.set "nullable" value fields) = keywordNames key walked fields := by
  induction fields with
  | nil => simp [Entries.set, keywordNames, hkey.symm]
  | cons field rest ih =>
      obtain ⟨k, v⟩ := field
      by_cases hk : k = "nullable"
      · subst hk
        simp [Entries.set, keywordNames, hkey.symm]
      · simp [Entries.set, hk, keywordNames, ih]

theorem walkNames_set_nullable (fields : Fields) :
    walkNames .schema (.obj (Entries.set "nullable" (.bool true) fields)) = walkNames .schema (.obj fields) := by
  have href : refName (Entries.set "nullable" (.bool true) fields) = refName fields := by
    unfold refName Json.getField
    rw [Entries.get?_set, if_neg (by simp)]
  rw [walkNames, walkNames, href, keywordNames_set (by simp), keywordNames_set (by simp), keywordNames_set (by simp),
    keywordNames_set (by simp), keywordNames_set (by simp), keywordNames_set (by simp)]

theorem walkNames_reference (name : Str) : walkNames .schema (.obj (reference name)) = [name] := by
  have href : refName (reference name) = some name := Str.stripPrefix?_eq_some.mpr rfl
  rw [walkNames, href]
  simp [reference, keywordNames]

-- The walk goes into whatever is wrapped around a schema.
theorem walkNames_apply (wrap : Wrap) (fields : Fields) :
    walkNames .schema (.obj (wrap.apply fields)) = walkNames .schema (.obj fields) := by
  cases wrap with
  | same => rfl
  | array =>
      have hwalk : walkNames .schema (.obj (arraySchema fields)) = walkNames .schema (.obj fields) ++ [] := rfl
      exact hwalk.trans (List.append_nil _)
  | map =>
      have hwalk : walkNames .schema (.obj (mapSchema fields)) = walkNames .schema (.obj fields) ++ [] := rfl
      exact hwalk.trans (List.append_nil _)
  | nullable refType =>
      show walkNames .schema (.obj (nullable fields refType)) = _
      unfold nullable
      split
      · rfl
      · split
        · split
          · rename_i name _
            have hwalk : walkNames .schema (.obj [Json.field "type" (.str name), Json.field "nullable" (.bool true),
                Json.field "allOf" (.arr [.obj fields])]) = walkNames .schema (.obj fields) ++ [] ++ [] := rfl
            rw [hwalk, List.append_nil, List.append_nil]
          · exact walkNames_set_nullable fields
        · exact walkNames_set_nullable fields

variable {program : Program} {called : PyType → Str}

theorem walkNames_outline {context : Context} {pyType : PyType} {outline : Outline}
    (h : Describes program context pyType outline) {key : PyType} (hkey : key ∈ outline.ending.keys) :
    called key ∈ walkNames .schema (.obj (outline.write called)) := by
  induction h with
  | schema _ => cases hkey
  | component _ =>
      cases List.mem_singleton.mp hkey
      show called _ ∈ walkNames .schema (.obj (reference _))
      rw [walkNames_reference]
      exact List.mem_singleton_self _
  | within _ _ ih =>
      show called _ ∈ walkNames .schema (.obj (Wrap.apply _ _))
      rw [walkNames_apply]
      exact ih hkey

theorem memberNames_of_mem {members : Fields} {member : Str × Json} (hmem : member ∈ members) {name : Str}
    (hname : name ∈ walkNames .schema member.2) : name ∈ memberNames members := by
  induction members with
  | nil => cases hmem
  | cons first rest ih =>
      obtain ⟨key, value⟩ := first
      rw [memberNames]
      rcases List.mem_cons.mp hmem with rfl | hmem
      · exact List.mem_append_left _ hname
      · exact List.mem_append_right _ (ih hmem)

theorem walkNames_property {context : Context} {property : Property} {described : Property × Outline}
    (h : DescribesProperty program context property described) {key : PyType}
    (hkey : key ∈ described.2.ending.keys) : called key ∈ walkNames .schema (.obj (described.2.write called)) := by
  obtain ⟨-, h⟩ := h
  cases htype : property.pyType with
  | none =>
      rw [htype] at h
      rw [h] at hkey
      cases hkey
  | some pyType =>
      rw [htype] at h
      exact walkNames_outline h hkey

theorem mem_walkNames_record {properties : Fields} {required : List Str} (hnodup : (Entries.keys properties).Nodup)
    {property : Str × Json} (hmem : property ∈ properties) {name : Str} (hname : name ∈ walkNames .schema property.2) :
    name ∈ walkNames .schema (.obj (recordSchema properties required)) := by
  have hproperties : keywordNames "properties" .properties (recordSchema properties required) =
      memberNames properties := by
    unfold recordSchema
    rw [Entries.update_nil_of_nodup hnodup]
    simp [keywordNames, walkNames]
  rw [walkNames, hproperties]
  have hmember := memberNames_of_mem hmem hname
  simp [hmember]

theorem walkNames_blueprint {content : Content} {blueprint : Blueprint}
    (h : DescribesContent program content blueprint)
    (hnodup : ∀ context properties, content = .record context properties →
      (properties.map fun property => property.name).Nodup)
    {key : PyType} (hkey : key ∈ blueprint.keys) :
    called key ∈ walkNames .schema (.obj (blueprint.derived called).1) := by
  cases h with
  | schema schema => cases hkey
  | @record context properties described h =>
      have hnames : described.map (fun property => property.1.name) = properties.map fun property => property.name := by
        clear hnodup hkey
        induction h with
        | nil => rfl
        | cons hfirst _ ih => rw [List.map_cons, List.map_cons, ih, hfirst.1]
      obtain ⟨property, hproperty, hkey⟩ := List.mem_flatMap.mp hkey
      obtain ⟨source, -, hdescribes⟩ := exists_of_mem_right h hproperty
      apply mem_walkNames_record
      · unfold Entries.keys
        rw [List.map_map, List.map_map]
        show (described.map fun property => property.1.name).Nodup
        rw [hnames]
        exact hnodup context properties rfl
      · exact List.mem_map_of_mem (List.mem_map_of_mem hproperty)
      · exact walkNames_property hdescribes hkey

variable [UnicodeData] {fuel : Nat} {mappings : Str × Str → List (Str × Str)} {registrations : Registrations}
  {document : Document} {components : List Component} {outlined : Member → List Outlined}

-- No two hoisted types claim one name, and no two fields of a record one property.
structure Distinctive (program : Program) (start : Context → PyType → Prop) : Prop where
  names : ∀ a b, Hoists program start a → Hoists program start b →
    componentName program a = componentName program b → a = b
  properties : ∀ context pyType key inner properties, Met program start context pyType →
    rule program context pyType = .component key → content program context key = .record inner properties →
    (properties.map fun property => property.name).Nodup

def Document.roots (document : Document) : List Json := document.entries.flatMap Entry.schemas

omit [UnicodeData] in
theorem Refers.left {a b : PyType} (h : Refers components a b) : a ∈ keysOf components := by
  by_contra hnew
  have hnone : components.find? (fun component => component.key = a) = none := by
    rw [← Option.not_isSome_iff_eq_none, find?_isSome_iff]
    exact hnew
  unfold Refers refsOf at h
  rw [hnone] at h
  cases h

theorem Catalogued.refers (h : Catalogued program registrations components outlined) {entryRefs : EntryRefs}
    {schemas : Fields} (hfinish : finish components entryRefs = .ok schemas)
    (hdistinctive : Distinctive program registrations.starts) {a b : PyType} (hrefers : Refers components a b) :
    componentName program b ∈ walkNames .schema (component schemas (componentName program a)) := by
  obtain ⟨source, hsource, rfl⟩ := mem_keysOf.mp hrefers.left
  have hname : componentName program source.key ∈ Entries.keys schemas :=
    (mem_keys_schemas hfinish).mpr ⟨source, hsource, (h.adds.settled hsource).1.1⟩
  obtain ⟨schema, hschema, hentry⟩ := List.mem_map.mp hname
  obtain ⟨first, blueprint, hfirst, hpublishes⟩ := h.published hfinish hschema
  obtain ⟨hmem, hfirstName⟩ := mem_group.mp (List.mem_of_mem_head? hfirst)
  have hsame : first.key = source.key := by
    apply hdistinctive.names _ _ (h.hoists hmem) (h.hoists hsource)
    rw [← (h.adds.settled hmem).1.1, hfirstName, hentry]
  have hvalue : component schemas (componentName program source.key) = schema.2 := by
    unfold component
    rw [Entries.get?_of_mem _ (by rw [← hentry]; exact hschema)]
    · rfl
    · rw [keys_schemas hfinish]
      exact nodup_groupNames
  obtain ⟨context, pyType, hmet, hrule, hdescribes⟩ := hpublishes.met
  rw [Refers, ← hsame, refsOf_of_mem h.adds.ordered.nodup hmem, hpublishes.refs] at hrefers
  rw [hvalue, hpublishes.schema]
  exact walkNames_blueprint hdescribes
    (fun inner properties hcontent =>
      hdistinctive.properties context pyType first.key inner properties hmet hrule hcontent)
    hrefers

theorem Catalogued.mem_rootNames (h : Catalogued program registrations components outlined) (member : Member)
    (listed : Str × Str → List (Str × Str))
    (hentries : ∀ entry ∈ sortEntries ((outlined member).map (Outlined.entry (componentName program) listed)),
      entry ∈ document.entries) {key : PyType} (hkey : key ∈ (outlined member).flatMap Outlined.keys) :
    componentName program key ∈ rootNames document.roots := by
  obtain ⟨source, hsource, hkey⟩ := List.mem_flatMap.mp hkey
  obtain ⟨declared, -, hdescribes⟩ := exists_of_mem_right (h.entries member) hsource
  have hentry : source.entry (componentName program) listed ∈ document.entries := by
    apply hentries
    rw [sortEntries, (sortOn_perm _ _).mem_iff]
    exact List.mem_map_of_mem hsource
  have hroot : ∀ schema ∈ (source.entry (componentName program) listed).schemas,
      componentName program key ∈ walkNames .schema schema → componentName program key ∈ rootNames document.roots :=
    fun schema hschema hname =>
      List.mem_flatMap.mpr ⟨schema, List.mem_flatMap.mpr ⟨_, hentry, hschema⟩, hname⟩
  rcases List.mem_append.mp hkey with hkey | hkey
  · exact hroot _ List.mem_cons_self (walkNames_outline hdescribes.payload hkey)
  · have hresponse := hdescribes.response
    generalize declared.response = response at hresponse
    cases houtline : source.response with
    | none =>
        rw [houtline] at hkey
        cases hkey
    | some outline =>
        rw [houtline] at hkey hresponse
        cases hresponse with
        | some hdescribesResponse =>
            apply hroot (.obj (outline.write (componentName program)))
            · apply List.mem_cons_of_mem
              rw [Option.mem_toList]
              unfold Outlined.entry
              rw [houtline]
              rfl
            · exact walkNames_outline hdescribesResponse hkey

-- A derived document's catalogue is what its entries lead to.
theorem deriveDocument_reaches (h : deriveDocument program fuel mappings registrations = .ok document)
    (hdistinctive : Distinctive program registrations.starts) :
    reachableSchemas document.schemas document.roots = document.schemas := by
  obtain ⟨components, outlined, hcatalogued, hfinish, hrequests, hevents, hsends⟩ := deriveDocument_ok h
  apply List.filter_eq_self.mpr
  intro entry hentry
  rw [decide_eq_true_eq, mem_reachableNames]
  have hkeys : ∀ {name : Str}, name ∈ Entries.keys document.schemas ↔ ∃ component ∈ components, component.name = name :=
    mem_keys_schemas hfinish
  obtain ⟨component, hmem, hname⟩ := hkeys.mp (List.mem_map_of_mem (f := Prod.fst) hentry)
  obtain ⟨hsettled, key, hkey, hleads⟩ := hcatalogued.adds.settled hmem
  rw [← hname, hsettled.1]
  have hroot : componentName program key ∈ rootNames document.roots := by
    rw [List.flatMap_append, List.flatMap_append] at hkey
    rcases List.mem_append.mp hkey with hkey | hkey
    · rcases List.mem_append.mp hkey with hkey | hkey
      · apply hcatalogued.mem_rootNames .requests mappings _ hkey
        rw [← hrequests]
        exact fun entry hentry => List.mem_append_left _ (List.mem_append_left _ hentry)
      · apply hcatalogued.mem_rootNames .events (fun _ => []) _ hkey
        rw [← hevents]
        exact fun entry hentry => List.mem_append_left _ (List.mem_append_right _ hentry)
    · apply hcatalogued.mem_rootNames .sends (fun _ => []) _ hkey
      rw [← hsends]
      exact fun entry hentry => List.mem_append_right _ hentry
  have hpublished : ∀ other, Relation.ReflTransGen (Refers components) key other → other ∈ keysOf components →
      Reaches document.schemas (rootNames document.roots) (componentName program other) := by
    intro other hother
    induction hother with
    | refl =>
        intro hkey
        obtain ⟨target, htarget, rfl⟩ := mem_keysOf.mp hkey
        exact .root hroot (hkeys.mpr ⟨target, htarget, (hcatalogued.adds.settled htarget).1.1⟩)
    | tail _ hlast ih =>
        intro hkey
        obtain ⟨target, htarget, rfl⟩ := mem_keysOf.mp hkey
        exact .step (ih hlast.left) (hcatalogued.refers hfinish hdistinctive hlast)
          (hkeys.mpr ⟨target, htarget, (hcatalogued.adds.settled htarget).1.1⟩)
  exact hpublished component.key hleads (mem_keysOf.mpr ⟨component, hmem, rfl⟩)

def nextType : PyType := .alias (.union "Optional") [.atom (.cls 0), .atom .none]

omit [UnicodeData] in
theorem met_node {context : Context} {pyType : PyType} : letI := UnicodeData.ascii
    Met nodeProgram nodeRegistrations.starts context pyType → context = topLevel ∧
      (pyType = .atom (.cls 0) ∨ pyType = nextType) := by
  let _ := UnicodeData.ascii
  intro h
  have hclass : rule nodeProgram topLevel (.atom (.cls 0)) = .component (.atom (.cls 0)) := rfl
  have hnext : rule nodeProgram topLevel nextType =
      .within topLevel (.atom (.cls 0)) (.nullable (some "object")) := rfl
  induction h with
  | start hstart =>
      obtain ⟨hcontext, member, entry, hentry, htype⟩ := hstart
      refine ⟨hcontext, .inl ?_⟩
      cases member with
      | requests =>
          cases List.mem_singleton.mp hentry
          exact List.mem_singleton.mp htype
      | events => cases hentry
      | sends => cases hentry
  | within _ hrule ih =>
      obtain ⟨rfl, rfl | rfl⟩ := ih
      · rw [hclass] at hrule
        cases hrule
      · rw [hnext] at hrule
        cases hrule
        exact ⟨rfl, .inl rfl⟩
  | property _ hrule hcontent hproperty htype ih =>
      obtain ⟨rfl, rfl | rfl⟩ := ih
      · rw [hclass] at hrule
        cases hrule
        have hrecord : content nodeProgram topLevel (.atom (.cls 0)) =
            .record topLevel [⟨"next", some nextType, true⟩] := rfl
        rw [hrecord] at hcontent
        cases hcontent
        cases List.mem_singleton.mp hproperty
        cases htype
        exact ⟨rfl, .inr rfl⟩
      · rw [hnext] at hrule
        cases hrule

omit [UnicodeData] in
theorem distinctive_node : letI := UnicodeData.ascii; Distinctive nodeProgram nodeRegistrations.starts := by
  let _ := UnicodeData.ascii
  have hkey : ∀ context pyType key, Met nodeProgram nodeRegistrations.starts context pyType →
      rule nodeProgram context pyType = .component key → context = topLevel ∧ key = .atom (.cls 0) := by
    intro context pyType key hmet hrule
    obtain ⟨rfl, rfl | rfl⟩ := met_node hmet
    · cases hrule
      exact ⟨rfl, rfl⟩
    · cases hrule
  constructor
  · rintro a b ⟨context, pyType, hmet, hrule⟩ ⟨context', pyType', hmet', hrule'⟩ _
    rw [(hkey _ _ _ hmet hrule).2, (hkey _ _ _ hmet' hrule').2]
  · intro context pyType key inner properties hmet hrule hcontent
    obtain ⟨rfl, rfl⟩ := hkey _ _ _ hmet hrule
    cases hcontent
    exact List.nodup_singleton _

omit [UnicodeData] in
theorem deriveDocument_reaches_node : letI := UnicodeData.ascii
    deriveDocument nodeProgram 5 (fun _ => []) nodeRegistrations = .ok nodeDocument ∧
      Distinctive nodeProgram nodeRegistrations.starts ∧
      reachableSchemas nodeDocument.schemas nodeDocument.roots = nodeDocument.schemas := by
  exact ⟨deriveDocument_node, distinctive_node,
    @deriveDocument_reaches _ UnicodeData.ascii _ _ _ _ deriveDocument_node distinctive_node⟩

end Reached

end Benzene.Contract.Derivation
