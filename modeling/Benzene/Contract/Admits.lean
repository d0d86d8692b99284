import Benzene.Contract.Accepted

namespace Benzene.Contract.Derivation

open Benzene.Data Benzene.Data.JsonSchema

section Forms

variable {resolve other : Str → Option Fields} {schema item : Fields} {value : Json}

theorem elements_of_ofType (h : OfType "array" value) : ∃ elements, value = .arr elements := by
  generalize hname : ("array" : Str) = name at h
  cases h with
  | array elements => exact ⟨elements, rfl⟩
  | _ => exact absurd hname (by decide)

theorem members_of_ofType (h : OfType "object" value) : ∃ members, value = .obj members := by
  generalize hname : ("object" : Str) = name at h
  cases h with
  | object members => exact ⟨members, rfl⟩
  | _ => exact absurd hname (by decide)

theorem accepts_array_iff : Accepts resolve (arraySchema item) value ↔
    ∃ elements, value = .arr elements ∧ ∀ element ∈ elements, Accepts resolve item element := by
  constructor
  · intro h
    obtain ⟨elements, rfl⟩ := elements_of_ofType (h.ofType rfl rfl rfl)
    refine ⟨elements, rfl, ?_⟩
    cases h with
    | reference hsome => cases hsome
    | keywords _ _ _ hitems => exact hitems item elements rfl rfl
  · rintro ⟨elements, rfl, h⟩
    exact accepts_array h

theorem accepts_map_iff : Accepts resolve (mapSchema item) value ↔
    ∃ members, value = .obj members ∧ ∀ member ∈ members, Accepts resolve item member.2 := by
  constructor
  · intro h
    obtain ⟨members, rfl⟩ := members_of_ofType (h.ofType rfl rfl rfl)
    refine ⟨members, rfl, ?_⟩
    cases h with
    | reference hsome => cases hsome
    | keywords _ _ _ _ hadditional => exact hadditional item members rfl rfl
  · rintro ⟨members, rfl, h⟩
    exact accepts_map h

theorem accepts_record_iff {properties : Fields} {required : List Str} :
    Accepts resolve (recordSchema properties required) value ↔ ∃ members, value = .obj members ∧
      (∀ name property, Entries.get? name (Entries.update [] properties) = some (.obj property) →
        ∀ member ∈ members, member.1 = name → Accepts resolve property member.2) ∧
      ∀ name ∈ required, name ∈ Entries.keys members := by
  constructor
  · intro h
    have href : Entries.get? ("$ref" : Str) (recordSchema properties required) = none :=
      get?_record (by decide) (by decide) (by decide)
    have htype : OfType "object" value := h.ofType href (get?_record (by decide) (by decide) (by decide)) rfl
    obtain ⟨members, rfl⟩ := members_of_ofType htype
    refine ⟨members, rfl, ?_⟩
    cases h with
    | reference hsome => rw [href] at hsome; cases hsome
    | keywords _ _ _ _ _ hproperties hrequired =>
        refine ⟨fun name property => hproperties _ members name property rfl rfl, ?_⟩
        intro name hname
        have hlisted : Entries.get? ("required" : Str) (recordSchema properties required) =
            some (.arr (required.map .str)) := by
          unfold recordSchema Json.fieldIf
          rw [if_pos (by simpa using List.ne_nil_of_mem hname)]
          rfl
        exact hrequired _ members name hlisted rfl (List.mem_map_of_mem hname)
  · rintro ⟨members, rfl, hproperties, hrequired⟩
    exact accepts_record hproperties hrequired

theorem accepts_set_nullable_iff (href : Entries.get? ("$ref" : Str) schema = none) :
    Accepts resolve (Entries.set "nullable" (.bool true) schema) value ↔
      value = .null ∨ Accepts resolve schema value := by
  have hget : ∀ {key : Str}, key ≠ "nullable" →
      Entries.get? key (Entries.set "nullable" (.bool true) schema) = Entries.get? key schema :=
    fun hkey => get?_nullable hkey schema
  constructor
  · intro h
    cases h with
    | reference hsome =>
        rw [hget (by decide), href] at hsome
        cases hsome
    | null => exact .inl rfl
    | keywords _ htype henum hitems hadditional hproperties hrequired hallOf =>
        rw [@hget "type" (by decide)] at htype
        rw [@hget "enum" (by decide)] at henum
        rw [@hget "items" (by decide)] at hitems
        rw [@hget "additionalProperties" (by decide)] at hadditional
        rw [@hget "properties" (by decide)] at hproperties
        rw [@hget "required" (by decide)] at hrequired
        rw [@hget "allOf" (by decide)] at hallOf
        exact .inr (.keywords href htype henum hitems hadditional hproperties hrequired hallOf)
  · rintro (rfl | h)
    · refine .null ?_ (Entries.get?_set_self _ _ _)
      rw [hget (by decide)]
      exact href
    · exact accepts_set_nullable href h

theorem accepts_wrapper_iff {name : Str} :
    Accepts resolve [Json.field "type" (.str name), Json.field "nullable" (.bool true),
      Json.field "allOf" (.arr [.obj schema])] value ↔
      value = .null ∨ (OfType name value ∧ Accepts resolve schema value) := by
  constructor
  · intro h
    cases h with
    | reference hsome => cases hsome
    | null => exact .inl rfl
    | keywords _ htype _ _ _ _ _ hallOf =>
        obtain ⟨other, hnames, hof⟩ := htype (.str name) rfl
        cases hnames
        exact .inr ⟨hof, hallOf _ schema rfl (List.mem_singleton_self _)⟩
  · rintro (rfl | ⟨htype, h⟩)
    · exact .null rfl rfl
    · exact accepts_wrapper h htype

-- A schema that refers to nothing and holds no other schema.
structure Flat (schema : Fields) : Prop where
  ref : Entries.get? ("$ref" : Str) schema = none
  items : ∀ item, Entries.get? ("items" : Str) schema = some (.obj item) → item = []
  additional : ∀ additional, Entries.get? ("additionalProperties" : Str) schema = some (.obj additional) →
    additional = []
  properties : Entries.get? ("properties" : Str) schema = none
  allOf : Entries.get? ("allOf" : Str) schema = none

theorem Flat.accepts (hflat : Flat schema) (h : Accepts resolve schema value) : Accepts other schema value := by
  cases h with
  | reference hsome => rw [hflat.ref] at hsome; cases hsome
  | null href hnullable => exact .null href hnullable
  | keywords href htype henum hitems hadditional hproperties hrequired hallOf =>
      refine .keywords href htype henum ?_ ?_ ?_ hrequired ?_
      · intro item items hitem _ element _
        rw [hflat.items item hitem]
        exact accepts_open element
      · intro additional members hget _ member _
        rw [hflat.additional additional hget]
        exact accepts_open member.2
      · intro properties members name property hget
        rw [hflat.properties] at hget
        cases hget
      · intro branches branch hget
        rw [hflat.allOf] at hget
        cases hget

theorem Leaf.flat (h : Leaf schema) : Flat schema := by
  cases h with
  | any => exact ⟨rfl, nofun, nofun, rfl, rfl⟩
  | array => exact ⟨rfl, fun item hitem => by cases hitem; rfl, nofun, rfl, rfl⟩
  | map => exact ⟨rfl, nofun, fun item hitem => by cases hitem; rfl, rfl, rfl⟩
  | primitive primitive => cases primitive <;> exact ⟨rfl, nofun, nofun, rfl, rfl⟩
  | path => exact ⟨rfl, nofun, nofun, rfl, rfl⟩
  | literal name scalars nullable => cases nullable <;> exact ⟨rfl, nofun, nofun, rfl, rfl⟩

theorem EnumLeaf.flat (h : EnumLeaf schema) : Flat schema := by
  cases h with
  | any => exact ⟨rfl, nofun, nofun, rfl, rfl⟩
  | values => exact ⟨rfl, nofun, nofun, rfl, rfl⟩

theorem Flat.accepts_iff (hflat : Flat schema) : Accepts resolve schema value ↔ Accepts other schema value :=
  ⟨hflat.accepts, hflat.accepts⟩

end Forms

section Outlines

-- What stands at the end of an outline comes from a rule.
def Outline.Plain (outline : Outline) : Prop := ∀ schema, outline.ending = .schema schema → Leaf schema

def Blueprint.Plain : Blueprint → Prop
  | .schema written => EnumLeaf written
  | .record properties => ∀ property ∈ properties, property.2.Plain

variable {program : Program} {context : Context} {pyType : PyType}

theorem Describes.plain {outline : Outline} (h : Describes program context pyType outline) : outline.Plain := by
  induction h with
  | schema hrule =>
      intro schema heq
      cases heq
      exact rule_leaf hrule
  | component =>
      intro schema heq
      cases heq
  | within _ _ ih => exact ih

theorem DescribesContent.plain [UnicodeData] {key : PyType} {blueprint : Blueprint}
    (h : DescribesContent program (content program context key) blueprint) : blueprint.Plain := by
  generalize hcontent : content program context key = content at h
  cases h with
  | schema schema => exact content_leaf hcontent
  | record hall =>
      show ∀ property ∈ _, _
      intro property hproperty
      obtain ⟨source, -, -, hdescribes⟩ := exists_of_mem_right hall hproperty
      cases htype : source.pyType with
      | none =>
          rw [htype] at hdescribes
          dsimp only at hdescribes
          rw [hdescribes]
          intro schema heq
          cases heq
          exact .any
      | some other =>
          rw [htype] at hdescribes
          exact hdescribes.plain

-- Two schemas that are the open one together, and refer to a component together.
structure Twin (schema other : Fields) : Prop where
  empty : schema = [] ↔ other = []
  refs : (Entries.get? ("$ref" : Str) schema = none ∧ Entries.get? ("$ref" : Str) other = none) ∨
    ∃ ref otherRef, Entries.get? ("$ref" : Str) schema = some (.str ref) ∧
      Entries.get? ("$ref" : Str) other = some (.str otherRef)

variable {schema other : Fields}

theorem set_nullable_ne (schema : Fields) : Entries.set ("nullable" : Str) (.bool true) schema ≠ [] := by
  intro heq
  have hget := Entries.get?_set_self ("nullable" : Str) (.bool true) schema
  rw [heq] at hget
  cases hget

theorem Twin.set_nullable (h : Twin schema other) :
    Twin (Entries.set "nullable" (.bool true) schema) (Entries.set "nullable" (.bool true) other) where
  empty := iff_of_false (set_nullable_ne schema) (set_nullable_ne other)
  refs := by
    rw [get?_nullable (by decide), get?_nullable (by decide)]
    exact h.refs

theorem Twin.apply (h : Twin schema other) (wrap : Wrap) : Twin (wrap.apply schema) (wrap.apply other) := by
  cases wrap with
  | same => exact h
  | array | map => exact ⟨iff_of_false (by nofun) (by nofun), .inl ⟨rfl, rfl⟩⟩
  | nullable refType =>
      show Twin (nullable schema refType) (nullable other refType)
      unfold nullable
      by_cases hempty : schema = []
      · rw [if_pos hempty, if_pos (h.empty.mp hempty)]
        exact h
      · rw [if_neg hempty, if_neg fun heq => hempty (h.empty.mpr heq)]
        cases refType with
        | none => exact h.set_nullable
        | some name =>
            dsimp only
            rcases h.refs with ⟨hnone, hnone'⟩ | ⟨ref, otherRef, hsome, hsome'⟩
            · rw [hnone, hnone']
              exact h.set_nullable
            · rw [hsome, hsome']
              exact ⟨iff_of_false (by nofun) (by nofun), .inl ⟨rfl, rfl⟩⟩

theorem Outline.twin {outline : Outline} (hplain : outline.Plain) (called also : PyType → Str) :
    Twin (outline.write called) (outline.write also) := by
  obtain ⟨wraps, ending⟩ := outline
  induction wraps with
  | nil =>
      cases ending with
      | schema schema => exact ⟨Iff.rfl, .inl ⟨(hplain schema rfl).flat.ref, (hplain schema rfl).flat.ref⟩⟩
      | component key => exact ⟨iff_of_false (by nofun) (by nofun), .inr ⟨_, _, rfl, rfl⟩⟩
  | cons wrap rest ih => exact (ih hplain).apply wrap

end Outlines

section Naming

-- What is published under a type's name is the schema, by names, of a type of the same values.
structure Publishing (own published : Str → Option Fields) (token name : PyType → Str) (keys : List PyType) : Prop where
  published : ∀ key ∈ keys, ∃ (same : PyType) (blueprint : Blueprint), blueprint.Plain ∧
    (∀ other ∈ blueprint.keys, other ∈ keys) ∧
    own (schemaRefPrefix ++ token same) = some (blueprint.derived token).1 ∧
    published (schemaRefPrefix ++ name key) = some (blueprint.derived name).1 ∧
    ∀ json, Accepts own (reference (token same)) json ↔ Accepts own (reference (token key)) json

variable {own published : Str → Option Fields} {token name : PyType → Str} {keys : List PyType}

-- A value is admitted alike by what a type is derived to, with the components' names and without.
def AdmitsAlike (own published : Str → Option Fields) (token name : PyType → Str) (keys : List PyType) (json : Json) :
    Prop :=
  ∀ outline : Outline, outline.Plain → (∀ key ∈ outline.ending.keys, key ∈ keys) →
    (Accepts published (outline.write name) json ↔ Accepts own (outline.write token) json)

theorem forall_written_iff {called : PyType → Str} {outlines : List (Str × Outline)} {P : Str → Fields → Prop} :
    (∀ key property, Entries.get? key (Entries.update [] (Entries.mapValues
      (fun outline : Outline => Json.obj (outline.write called)) outlines)) = some (.obj property) → P key property) ↔
    ∀ key outline, Entries.get? key (Entries.update [] outlines) = some outline → P key (outline.write called) := by
  constructor
  · intro h key outline hget
    apply h
    rw [Entries.get?_updated_mapValues, hget]
    rfl
  · intro h key property hget
    rw [Entries.get?_updated_mapValues] at hget
    obtain ⟨outline, houtline, heq⟩ := Option.map_eq_some_iff.mp hget
    cases heq
    exact h key outline houtline

variable {json : Json}

theorem blueprint_alike (hsmaller : ∀ part, sizeOf part < sizeOf json → AdmitsAlike own published token name keys part)
    {blueprint : Blueprint} (hplain : blueprint.Plain) (hkeys : ∀ key ∈ blueprint.keys, key ∈ keys) :
    Accepts published (blueprint.derived name).1 json ↔ Accepts own (blueprint.derived token).1 json := by
  cases blueprint with
  | schema schema => exact (EnumLeaf.flat hplain).accepts_iff
  | record described =>
      rw [Blueprint.derived_record, Blueprint.derived_record, accepts_record_iff, accepts_record_iff]
      apply exists_congr
      intro members
      apply and_congr_right
      rintro rfl
      apply and_congr_left'
      rw [forall_written_iff, forall_written_iff]
      apply forall₂_congr
      intro key outline
      apply imp_congr_right
      intro hget
      apply forall₃_congr
      intro member hmember _
      have hlisted : (key, outline) ∈ described.map fun property => (property.1.name, property.2) := by
        rcases Entries.mem_update (Entries.mem_of_get? hget) with hnil | hmem
        · cases hnil
        · exact hmem
      obtain ⟨property, hproperty, heq⟩ := List.mem_map.mp hlisted
      cases heq
      apply hsmaller member.2 (sizeOf_member hmember) property.2 (hplain property hproperty)
      exact fun other hother => hkeys other (List.mem_flatMap.mpr ⟨property, hproperty, hother⟩)

theorem Publishing.component (h : Publishing own published token name keys)
    (hsmaller : ∀ part, sizeOf part < sizeOf json → AdmitsAlike own published token name keys part) {key : PyType}
    (hkey : key ∈ keys) :
    Accepts published (reference (name key)) json ↔ Accepts own (reference (token key)) json := by
  obtain ⟨same, blueprint, hplain, hmore, hown, hpublished, hsame⟩ := h.published key hkey
  have hnamed : Accepts published (reference (name key)) json ↔ Accepts published (blueprint.derived name).1 json := by
    rw [accepts_ref_iff rfl, hpublished]
    simp
  have htoken : Accepts own (reference (token same)) json ↔ Accepts own (blueprint.derived token).1 json := by
    rw [accepts_ref_iff rfl, hown]
    simp
  rw [hnamed, blueprint_alike hsmaller hplain hmore, ← htoken]
  exact hsame json

-- The value stays the same along an outline, but for the items of an array or a map.
theorem wrap_alike {wrap : Wrap} {schema other : Fields} (htwin : Twin schema other)
    (hsmaller : ∀ part, sizeOf part < sizeOf json → (Accepts published schema part ↔ Accepts own other part))
    (hsame : Accepts published schema json ↔ Accepts own other json) :
    Accepts published (wrap.apply schema) json ↔ Accepts own (wrap.apply other) json := by
  cases wrap with
  | same => exact hsame
  | array =>
      show Accepts published (arraySchema schema) json ↔ Accepts own (arraySchema other) json
      rw [accepts_array_iff, accepts_array_iff]
      apply exists_congr
      intro elements
      apply and_congr_right
      rintro rfl
      exact forall₂_congr fun element helement => hsmaller element (sizeOf_element helement)
  | map =>
      show Accepts published (mapSchema schema) json ↔ Accepts own (mapSchema other) json
      rw [accepts_map_iff, accepts_map_iff]
      apply exists_congr
      intro members
      apply and_congr_right
      rintro rfl
      exact forall₂_congr fun member hmember => hsmaller member.2 (sizeOf_member hmember)
  | nullable refType =>
      have hset : Accepts published (Entries.set "nullable" (.bool true) schema) json ↔
          Accepts own (Entries.set "nullable" (.bool true) other) json := by
        rcases htwin.refs with ⟨hnone, hnone'⟩ | ⟨ref, otherRef, hsome, hsome'⟩
        · rw [accepts_set_nullable_iff hnone, accepts_set_nullable_iff hnone', hsame]
        · rw [accepts_ref_iff hsome, accepts_ref_iff hsome'] at hsame
          rw [accepts_ref_iff ((get?_nullable (by decide) schema).trans hsome),
            accepts_ref_iff ((get?_nullable (by decide) other).trans hsome')]
          exact hsame
      show Accepts published (nullable schema refType) json ↔ Accepts own (nullable other refType) json
      unfold nullable
      by_cases hempty : schema = []
      · rw [if_pos hempty, if_pos (htwin.empty.mp hempty)]
        exact hsame
      · rw [if_neg hempty, if_neg fun heq => hempty (htwin.empty.mpr heq)]
        cases refType with
        | none => exact hset
        | some refName =>
            dsimp only
            rcases htwin.refs with ⟨hnone, hnone'⟩ | ⟨ref, otherRef, hsome, hsome'⟩
            · rw [hnone, hnone']
              exact hset
            · rw [hsome, hsome']
              dsimp only [Option.isSome_some]
              rw [if_pos rfl, if_pos rfl, accepts_wrapper_iff, accepts_wrapper_iff, hsame]

-- Values are admitted alike whatever their size, by induction on it.
theorem Publishing.alike (h : Publishing own published token name keys) (json : Json) :
    AdmitsAlike own published token name keys json := by
  suffices hsized : ∀ size, ∀ json : Json, sizeOf json < size → AdmitsAlike own published token name keys json from
    hsized (sizeOf json + 1) json (Nat.lt_succ_self _)
  intro size
  induction size with
  | zero =>
      intro json hsize
      exact absurd hsize (Nat.not_lt_zero _)
  | succ size ih =>
      intro json hsize
      have hsmaller : ∀ part, sizeOf part < sizeOf json → AdmitsAlike own published token name keys part :=
        fun part hpart => ih part (by omega)
      rintro ⟨wraps, ending⟩ hplain hkeys
      induction wraps with
      | nil =>
          cases ending with
          | schema written => exact (hplain written rfl).flat.accepts_iff
          | component key => exact h.component hsmaller (hkeys key (List.mem_singleton_self key))
      | cons wrap rest ihWraps =>
          exact wrap_alike (@Outline.twin ⟨rest, ending⟩ hplain name token)
            (fun part hpart => hsmaller part hpart ⟨rest, ending⟩ hplain hkeys) (ihWraps hplain hkeys)

end Naming

end Benzene.Contract.Derivation
