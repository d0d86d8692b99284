import Benzene.Codegen.Speaking

namespace Benzene.Codegen

open Benzene.Data
open Benzene.Core (toCamel normalizeName keywordArguments foldedMembers)

section Lineage

variable {schemas : Fields}

theorem stated_root {schema ancestor : Fields} {name : Str} (hbase : baseOf schema = none) :
    Stated schemas schema name ancestor ↔ name ∈ Entries.keys (ownOf schema) ∧ ancestor = schema := by
  constructor
  · intro h
    cases h with
    | here h => exact ⟨h, rfl⟩
    | above _ hother _ _ =>
        rw [hbase] at hother
        cases hother
  · rintro ⟨h, rfl⟩
    exact .here h

theorem stated_derived {schema target ancestor : Fields} {base name : Str} (hbase : baseOf schema = some base)
    (htarget : Entries.get? base schemas = some (.obj target)) :
    Stated schemas schema name ancestor ↔ (name ∈ Entries.keys (ownOf schema) ∧ ancestor = schema) ∨
      (name ∉ Entries.keys (ownOf schema) ∧ Stated schemas target name ancestor) := by
  constructor
  · intro h
    cases h with
    | here h => exact .inl ⟨h, rfl⟩
    | above hown hother hothers h =>
        rw [hbase] at hother
        cases hother
        rw [htarget] at hothers
        cases hothers
        exact .inr ⟨hown, h⟩
  · rintro (⟨h, rfl⟩ | ⟨hown, h⟩)
    · exact .here h
    · exact .above hown hbase htarget h

theorem stated_unique {schema a b : Fields} {name : Str} (ha : Stated schemas schema name a)
    (hb : Stated schemas schema name b) : a = b := by
  induction ha with
  | here hown =>
      cases hb with
      | here _ => rfl
      | above hother _ _ _ => exact absurd hown hother
  | above hown hbase htarget _ ih =>
      rcases (stated_derived hbase htarget).mp hb with ⟨hother, -⟩ | ⟨-, hrest⟩
      · exact absurd hother hown
      · exact ih hrest

theorem hasProperty_of_stated {schema ancestor : Fields} {name : Str} (h : Stated schemas schema name ancestor) :
    HasProperty schemas schema name := by
  induction h with
  | here h => exact hasProperty_of_own h
  | above _ hbase htarget _ ih => exact hasProperty_of_base hbase htarget ih

variable [UnicodeData] [IdentifierData]

-- The field of a property is that of the nearest class that states it.
def FieldsOf (schemas schema : Fields) (cls : ClassFields) : Prop :=
  (Entries.keys cls).Nodup ∧ ∀ field spec, Entries.get? field cls = some spec ↔
    field = fieldAttribute spec.wireName ∧
      ∃ ancestor, Stated schemas schema spec.wireName ancestor ∧ spec.default = defaultIn (ownOf ancestor) spec.wireName

theorem fieldsOf_root {schema : Fields} (hbase : baseOf schema = none)
    (hplain : ∀ name ∈ Entries.keys (ownOf schema), PlainName name) :
    FieldsOf schemas schema (Entries.update [] (ownFields (ownOf schema))) := by
  have hnodup := nodup_ownFields (nodup_ownOf schema) hplain
  rw [Entries.update_nil_of_nodup hnodup]
  refine ⟨hnodup, ?_⟩
  intro field spec
  rw [get?_ownFields (nodup_ownOf schema) hplain]
  constructor
  · rintro ⟨hmem, hfield, hdefault⟩
    exact ⟨hfield, schema, (stated_root hbase).mpr ⟨hmem, rfl⟩, hdefault⟩
  · rintro ⟨hfield, ancestor, hstated, hdefault⟩
    obtain ⟨hmem, rfl⟩ := (stated_root hbase).mp hstated
    exact ⟨hmem, hfield, hdefault⟩

theorem fieldsOf_derived {schema target : Fields} {base : Str} {inherited : ClassFields}
    (hbase : baseOf schema = some base) (htarget : Entries.get? base schemas = some (.obj target))
    (hplain : ∀ name, HasProperty schemas schema name → PlainName name) (h : FieldsOf schemas target inherited) :
    FieldsOf schemas schema (Entries.update inherited (ownFields (ownOf schema))) := by
  have hown : ∀ name ∈ Entries.keys (ownOf schema), PlainName name :=
    fun name hname => hplain name (hasProperty_of_own hname)
  have hnodup := nodup_ownFields (nodup_ownOf schema) hown
  refine ⟨Entries.nodup_keys_update _ _ h.1, ?_⟩
  intro field spec
  rw [Entries.get?_update field inherited hnodup, Option.or_eq_some_iff, get?_ownFields (nodup_ownOf schema) hown, h.2]
  constructor
  · rintro (⟨hmem, hfield, hdefault⟩ | ⟨hnone, hfield, ancestor, hstated, hdefault⟩)
    · exact ⟨hfield, schema, .here hmem, hdefault⟩
    · have hnew : spec.wireName ∉ Entries.keys (ownOf schema) := by
        intro hmem
        have hsome := (@get?_ownFields _ _ _ (nodup_ownOf schema) hown field
          ⟨spec.wireName, defaultIn (ownOf schema) spec.wireName⟩).mpr ⟨hmem, hfield, rfl⟩
        rw [hnone] at hsome
        cases hsome
      exact ⟨hfield, ancestor, .above hnew hbase htarget hstated, hdefault⟩
  · rintro ⟨hfield, ancestor, hstated, hdefault⟩
    rcases (stated_derived hbase htarget).mp hstated with ⟨hmem, rfl⟩ | ⟨hnew, hrest⟩
    · exact .inl ⟨hmem, hfield, hdefault⟩
    · refine .inr ⟨?_, hfield, ancestor, hrest, hdefault⟩
      cases hget : Entries.get? field (ownFields (ownOf schema)) with
      | none => rfl
      | some other =>
          obtain ⟨hmem, hother, -⟩ := (get?_ownFields (nodup_ownOf schema) hown).mp hget
          have hsame := fieldAttribute_inj (hplain _ (hasProperty_of_stated hstated)) (hown _ hmem)
            (hfield.symm.trans hother)
          rw [hsame] at hnew
          exact absurd hmem hnew

omit [UnicodeData] in
theorem generated_root {name : Str} {schema : Fields} (hget : Entries.get? name schemas = some (.obj schema))
    (hreadable : Readable schema) (hbase : baseOf schema = none) {cls : ClassFields} :
    Generated schemas name cls ↔ ∃ own, runBody (className name) [] (fieldsFrom [] (ownOf schema)) = .ok own ∧
      cls = Entries.update [] own := by
  have hsource := buildSchemaSource_eq hreadable name
  rw [hbase, Option.map_none] at hsource
  constructor
  · intro h
    cases h with
    | root hgot hbuilt hbody =>
        rw [hget] at hgot
        cases hgot
        rw [hsource] at hbuilt
        cases hbuilt
        exact ⟨_, hbody, rfl⟩
    | derived hgot hbuilt _ _ _ =>
        rw [hget] at hgot
        cases hgot
        rw [hsource] at hbuilt
        cases hbuilt
  · rintro ⟨own, hbody, rfl⟩
    exact .root hget hsource hbody

omit [UnicodeData] in
theorem generated_derived {name base : Str} {schema : Fields} (hget : Entries.get? name schemas = some (.obj schema))
    (hreadable : Readable schema) (hbase : baseOf schema = some base) {cls : ClassFields} :
    Generated schemas name cls ↔ ∃ inherited own, Generated schemas base inherited ∧
      runBody (className name) [] (fieldsFrom [] (ownOf schema)) = .ok own ∧ cls = Entries.update inherited own := by
  have hsource := buildSchemaSource_eq hreadable name
  rw [hbase, Option.map_some] at hsource
  have hbaseName : baseRefName (.obj schema) = .ok (some base) := by
    rw [baseRefName, ownProperties_eq hreadable, (Option.filter_eq_some_iff.mp hbase).1]
    rfl
  constructor
  · intro h
    cases h with
    | root hgot hbuilt _ =>
        rw [hget] at hgot
        cases hgot
        rw [hsource] at hbuilt
        cases hbuilt
    | derived hgot hbuilt hother hinherited hbody =>
        rw [hget] at hgot
        cases hgot
        rw [hbaseName] at hother
        cases hother
        rw [hsource] at hbuilt
        cases hbuilt
        exact ⟨_, _, hinherited, hbody, rfl⟩
  · rintro ⟨inherited, own, hinherited, hbody, rfl⟩
    exact .derived hget hsource hbaseName hinherited hbody

omit [UnicodeData] in
theorem bodiesRun_root {schema : Fields} (hbase : baseOf schema = none) :
    BodiesRun schemas schema ↔ BodyRuns (ownOf schema) := by
  constructor
  · intro h
    cases h with
    | root _ hbody => exact hbody
    | derived hother _ _ _ =>
        rw [hbase] at hother
        cases hother
  · exact .root hbase

omit [UnicodeData] in
theorem bodiesRun_derived {schema target : Fields} {base : Str} (hbase : baseOf schema = some base)
    (htarget : Entries.get? base schemas = some (.obj target)) :
    BodiesRun schemas schema ↔ BodiesRun schemas target ∧ BodyRuns (ownOf schema) := by
  constructor
  · intro h
    cases h with
    | root hother _ =>
        rw [hbase] at hother
        cases hother
    | derived hother hothers hrest hbody =>
        rw [hbase] at hother
        cases hother
        rw [htarget] at hothers
        cases hothers
        exact ⟨hrest, hbody⟩
  · rintro ⟨hrest, hbody⟩
    exact .derived hbase htarget hrest hbody

-- The class of a schema with plain names: there is one when each body of its lineage
-- runs, and it has the fields of the lineage.
theorem generated_iff {name : Str} {schema : Fields} (h : ObjectSchema schemas name schema)
    (hplain : ∀ property, HasProperty schemas schema property → PlainName property) :
    (BodiesRun schemas schema → ∃ cls, Generated schemas name cls) ∧
      ∀ cls, Generated schemas name cls → BodiesRun schemas schema ∧ FieldsOf schemas schema cls := by
  induction h with
  | @root name schema hget hreadable hbase =>
      have hown : ∀ property ∈ Entries.keys (ownOf schema), PlainName property :=
        fun property hproperty => hplain property (hasProperty_of_own hproperty)
      rw [bodiesRun_root hbase]
      constructor
      · intro hbody
        exact ⟨_, (generated_root hget hreadable hbase).mpr
          ⟨_, (runBody_eq_ok_iff (nodup_ownOf schema) hown).mpr ⟨hbody, rfl⟩, rfl⟩⟩
      · intro cls hcls
        obtain ⟨own, hbody, rfl⟩ := (generated_root hget hreadable hbase).mp hcls
        obtain ⟨hruns, rfl⟩ := (runBody_eq_ok_iff (nodup_ownOf schema) hown).mp hbody
        exact ⟨hruns, fieldsOf_root hbase hown⟩
  | @derived name base schema target hget hreadable hbase htarget ih =>
      have hown : ∀ property ∈ Entries.keys (ownOf schema), PlainName property :=
        fun property hproperty => hplain property (hasProperty_of_own hproperty)
      obtain ⟨hexists, hfields⟩ := ih fun property hproperty =>
        hplain property (hasProperty_of_base hbase htarget.get?_eq hproperty)
      rw [bodiesRun_derived hbase htarget.get?_eq]
      constructor
      · rintro ⟨hrest, hbody⟩
        obtain ⟨inherited, hinherited⟩ := hexists hrest
        exact ⟨_, (generated_derived hget hreadable hbase).mpr
          ⟨inherited, _, hinherited, (runBody_eq_ok_iff (nodup_ownOf schema) hown).mpr ⟨hbody, rfl⟩, rfl⟩⟩
      · intro cls hcls
        obtain ⟨inherited, own, hinherited, hbody, rfl⟩ := (generated_derived hget hreadable hbase).mp hcls
        obtain ⟨hruns, rfl⟩ := (runBody_eq_ok_iff (nodup_ownOf schema) hown).mp hbody
        obtain ⟨hbodies, hinheritedFields⟩ := hfields _ hinherited
        exact ⟨⟨hbodies, hruns⟩, fieldsOf_derived hbase htarget.get?_eq hplain hinheritedFields⟩

omit [UnicodeData] in
-- Where a field comes from, whatever the names.
theorem mem_fieldsFrom {seen : List Str} {own : Fields} {field : Field} (h : field ∈ fieldsFrom seen own) :
    field.pythonName = fieldName field.wireName := by
  induction own generalizing seen with
  | nil => cases h
  | cons property rest ih =>
      rw [fieldsFrom] at h
      split at h
      · exact ih h
      · rcases List.mem_cons.mp h with rfl | h
        · rfl
        · exact ih h

omit [UnicodeData] in
theorem mem_runBody {cls : Str} {bound : List Str} {fields : List Field} {out : ClassFields}
    (h : runBody cls bound fields = .ok out) {field : Str × FieldSpec} (hmem : field ∈ out) :
    ∃ source ∈ fields, Str.IsName source.pythonName ∧ field.1 = attributeName cls source.pythonName ∧
      field.2.wireName = source.wireName := by
  induction fields generalizing bound out with
  | nil =>
      cases h
      cases hmem
  | cons source rest ih =>
      rw [runBody] at h
      split at h
      · rename_i hname
        obtain ⟨default, -, h⟩ := Except.bind_eq_ok.mp h
        obtain ⟨more, hmore, h⟩ := Except.bind_eq_ok.mp h
        cases h
        rcases List.mem_cons.mp hmem with rfl | hmem
        · exact ⟨source, List.mem_cons_self, hname, rfl, rfl⟩
        · obtain ⟨other, hother, hfound⟩ := ih hmore hmem
          exact ⟨other, List.mem_cons_of_mem _ hother, hfound⟩
      · cases h

omit [UnicodeData] in
theorem generated_origin {name : Str} {schema : Fields} (h : ObjectSchema schemas name schema) {cls : ClassFields}
    (hcls : Generated schemas name cls) {field : Str × FieldSpec} (hmem : field ∈ cls) :
    ∃ component, Str.IsName (fieldName field.2.wireName) ∧
      field.1 = attributeName (className component) (fieldName field.2.wireName) := by
  have hbody : ∀ {name : Str} {own : ClassFields} {properties : Fields},
      runBody (className name) [] (fieldsFrom [] properties) = .ok own → field ∈ own →
        ∃ component, Str.IsName (fieldName field.2.wireName) ∧
          field.1 = attributeName (className component) (fieldName field.2.wireName) := by
    intro name own properties hrun hfield
    obtain ⟨source, hsource, hname, hattribute, hwire⟩ := mem_runBody hrun hfield
    rw [mem_fieldsFrom hsource, ← hwire] at hname hattribute
    exact ⟨name, hname, hattribute⟩
  induction h generalizing cls with
  | root hget hreadable hbase =>
      obtain ⟨own, hrun, rfl⟩ := (generated_root hget hreadable hbase).mp hcls
      exact hbody hrun ((Entries.mem_update hmem).resolve_left List.not_mem_nil)
  | derived hget hreadable hbase htarget ih =>
      obtain ⟨inherited, own, hinherited, hrun, rfl⟩ := (generated_derived hget hreadable hbase).mp hcls
      rcases Entries.mem_update hmem with hmem | hmem
      · exact ih hinherited hmem
      · exact hbody hrun hmem

end Lineage

section Wire

variable [UnicodeData] {cls : ClassFields}

-- A field that is written under a name is named so in camel case.
theorem toCamel_of_writtenUnder {field : Str × FieldSpec} {name : Str} (h : WrittenUnder cls field name) :
    toCamel field.1 = name := by
  obtain ⟨written, hwritten, hget⟩ := h fun other => .bool (other = field.1)
  rw [instanceOf, Core.toJsonable_payload] at hwritten
  have hwritten : Entries.update [] (Core.camelMembers
      (cls.map fun other => (other.1, Json.bool (other.1 = field.1)))) = written := by
    have hjson := congrArg Core.asJson (Except.ok.inj hwritten)
    rw [Core.asJson_ofJson, Core.asJson_ofJson] at hjson
    exact Json.obj.inj (Except.ok.inj hjson)
  rw [← hwritten] at hget
  have hmember := (Entries.mem_update (Entries.mem_of_get? hget)).resolve_left List.not_mem_nil
  obtain ⟨value, hvalue, heq⟩ := List.mem_map.mp hmember
  obtain ⟨other, -, rfl⟩ := List.mem_map.mp hvalue
  obtain ⟨hname, hsame⟩ := Prod.mk.inj heq
  have hsame : other.1 = field.1 := by simpa using hsame
  rw [← hsame]
  exact hname

theorem writtenUnder_of_apart (hnodup : ((Entries.keys cls).map toCamel).Nodup) {field : Str × FieldSpec}
    (hmem : field ∈ cls) : WrittenUnder cls field (toCamel field.1) := by
  intro values
  refine ⟨_, Core.toJsonable_payload _, ?_⟩
  have hkeys : Entries.keys (Core.camelMembers (cls.map fun other => (other.1, values other.1))) =
      (Entries.keys cls).map toCamel := by
    rw [Core.camelMembers, Entries.keys, Entries.keys, List.map_map, List.map_map, List.map_map]
    rfl
  rw [← hkeys] at hnodup
  rw [Entries.update_nil_of_nodup hnodup]
  apply Entries.get?_of_mem hnodup
  apply List.mem_map.mpr
  exact ⟨(field.1, values field.1), List.mem_map_of_mem hmem, rfl⟩

theorem toRequest_requestType (component : Str) (data : Fields) :
    Core.toRequest (some (requestType component cls)) (.obj data) =
      (construct cls (keywordArguments (Entries.keys cls) data)).map .typed := rfl

-- What a field gets of an object: its member, or its default.
def argument (data : Fields) (field : Str × FieldSpec) : Option Json :=
  (Entries.get? (normalizeName field.1) (foldedMembers data)).or field.2.default

omit [UnicodeData] in
theorem mapM_arguments {fields : ClassFields} {get : Str × FieldSpec → Option Json} {values : Fields} :
    (fields.mapM fun field => assign field.1 (get field)) = .ok values ↔
      (∀ field ∈ fields, (get field).isSome) ∧ values = fields.map fun field => (field.1, (get field).getD .null) := by
  induction fields generalizing values with
  | nil =>
      rw [List.mapM_nil]
      exact ⟨fun h => ⟨List.forall_mem_nil _, (Except.ok.inj h).symm⟩, fun h => congrArg Except.ok h.2.symm⟩
  | cons field rest ih =>
      rw [List.mapM_cons, List.forall_mem_cons, List.map_cons]
      cases hget : get field with
      | none =>
          constructor
          · intro h
            cases h
          · rintro ⟨⟨h, -⟩, -⟩
            cases h
      | some value =>
          rw [Except.bind_eq_ok]
          constructor
          · rintro ⟨entry, hentry, h⟩
            cases hentry
            obtain ⟨more, hmore, h⟩ := Except.bind_eq_ok.mp h
            cases h
            obtain ⟨hall, rfl⟩ := ih.mp hmore
            exact ⟨⟨rfl, hall⟩, rfl⟩
          · rintro ⟨⟨-, hall⟩, rfl⟩
            refine ⟨_, rfl, ?_⟩
            rw [ih.mpr ⟨hall, rfl⟩]
            rfl

theorem construct_eq_ok {data values : Fields} :
    construct cls (keywordArguments (Entries.keys cls) data) = .ok values ↔
      (∀ field ∈ cls, (argument data field).isSome) ∧
        values = cls.map fun field => (field.1, (argument data field).getD .null) := by
  have hall :
      ((keywordArguments (Entries.keys cls) data).all fun argument => argument.1 ∈ Entries.keys cls) = true := by
    rw [List.all_eq_true]
    intro argument hargument
    exact decide_eq_true (Core.mem_keywordArguments hargument)
  have hget : ∀ field ∈ cls, (Entries.get? field.1 (keywordArguments (Entries.keys cls) data)).or field.2.default =
      argument data field := by
    intro field hfield
    have hname : field.1 ∈ Entries.keys cls := List.mem_map_of_mem hfield
    rw [Core.get?_keywordArguments hname]
    rfl
  rw [construct, if_pos hall, mapM_arguments]
  apply and_congr
  · exact forall₂_congr fun field hfield => by rw [hget field hfield]
  · rw [List.map_congr_left fun field hfield => by rw [hget field hfield]]

theorem get?_arguments (hnodup : (Entries.keys cls).Nodup) {data : Fields}
    (hsome : ∀ field ∈ cls, (argument data field).isSome) {field : Str × FieldSpec} (hmem : field ∈ cls) :
    Entries.get? field.1 (cls.map fun field => (field.1, (argument data field).getD .null)) = argument data field := by
  obtain ⟨value, hvalue⟩ := Option.isSome_iff_exists.mp (hsome field hmem)
  have hentry : (field.1, value) ∈ cls.map fun field => (field.1, (argument data field).getD .null) := by
    apply List.mem_map.mpr
    exact ⟨field, hmem, by rw [hvalue]; rfl⟩
  rw [hvalue]
  apply Entries.get?_of_mem _ hentry
  rw [Entries.keys, List.map_map]
  exact hnodup

-- What a request says of its fields.
theorem argument_of_populated {component : Str} {property : Str → Prop} (hnodup : (Entries.keys cls).Nodup)
    {field : Str × FieldSpec} (hmem : field ∈ cls) {name : Str} (h : PopulatedFrom component cls property field name)
    {data : Fields} (hdata : (Entries.keys data).Nodup) (hkeys : ∀ key ∈ Entries.keys data, property key) :
    (∀ other ∈ cls, (argument data other).isSome) ∧
      argument data field = (Entries.get? name data).or field.2.default := by
  obtain ⟨values, hrequest, hget⟩ := h data hdata hkeys
  rw [toRequest_requestType] at hrequest
  cases hconstruct : construct cls (keywordArguments (Entries.keys cls) data) with
  | error error =>
      rw [hconstruct] at hrequest
      cases hrequest
  | ok constructed =>
      rw [hconstruct] at hrequest
      cases hrequest
      obtain ⟨hsome, rfl⟩ := construct_eq_ok.mp hconstruct
      rw [get?_arguments hnodup hsome hmem] at hget
      exact ⟨hsome, hget⟩

-- Members whose names stay apart are found under their own.
theorem get?_foldedMembers {data : Fields} (hnodup : (Entries.keys data).Nodup) {name : Str}
    (hapart : ∀ a ∈ Entries.keys data, ∀ b ∈ name :: Entries.keys data, normalizeName a = normalizeName b → a = b) :
    Entries.get? (normalizeName name) (foldedMembers data) = Entries.get? name data := by
  have hkeys : (Entries.keys (data.map fun entry => (normalizeName entry.1, entry.2))).Nodup := by
    rw [Core.keys_mapKeys]
    exact hnodup.map_on fun a ha b hb => hapart a ha b (List.mem_cons_of_mem name hb)
  rw [foldedMembers, Entries.update_nil_of_nodup hkeys]
  have hname : ∀ a ∈ Entries.keys data, normalizeName a = normalizeName name → a = name :=
    fun a ha => hapart a ha name List.mem_cons_self
  clear hkeys hapart hnodup
  induction data with
  | nil => rfl
  | cons entry rest ih =>
      obtain ⟨key, value⟩ := entry
      have hrest := ih fun a ha => hname a (List.mem_cons_of_mem key ha)
      rw [List.map_cons, Entries.get?_cons, Entries.get?_cons, hrest]
      by_cases hkey : key = name
      · rw [if_pos hkey, if_pos (congrArg normalizeName hkey)]
      · rw [if_neg hkey, if_neg fun heq => hkey (hname key List.mem_cons_self heq)]

end Wire

section Contract

variable [IdentifierData] {schemas schema : Fields} {component : Str}

theorem isSome_defaultIn_iff {own : Fields} {name : Str} (h : name ∈ Entries.keys own) :
    (defaultIn own name).isSome ↔ Unshadowed own name := by
  obtain ⟨default, hdefault⟩ : ∃ default, defaultOf own name = some default := by
    cases hget : Entries.get? name own with
    | none => exact absurd h ((Entries.get?_eq_none_iff name own).mp hget)
    | some schema => exact ⟨_, by rw [defaultOf, hget]; rfl⟩
  unfold defaultIn Unshadowed
  rw [hdefault]
  dsimp only
  constructor
  · intro hsome other factory hother hfactory hmem
    cases hother
    rw [hfactory] at hsome
    dsimp only at hsome
    rw [if_pos hmem] at hsome
    cases hsome
  · intro hunshadowed
    cases hfactory : default.factory with
    | none => rfl
    | some factory =>
        dsimp only
        rw [if_neg (hunshadowed default factory rfl hfactory)]
        rfl

omit [IdentifierData] in
theorem Stated.mem {ancestor : Fields} {name : Str} (h : Stated schemas schema name ancestor) :
    name ∈ Entries.keys (ownOf ancestor) := by
  induction h with
  | here h => exact h
  | above _ _ _ _ ih => exact ih

theorem nodup_generated {cls : ClassFields} (h : Generated schemas component cls) : (Entries.keys cls).Nodup := by
  induction h with
  | root _ _ _ => exact Entries.nodup_keys_update _ _ List.nodup_nil
  | derived _ _ _ _ _ ih => exact Entries.nodup_keys_update _ _ ih

variable [UnicodeData]

omit [IdentifierData] in
-- A property's field is named after it and has its letters.
theorem kept_of_field {cls : ClassFields} (hnodup : (Entries.keys cls).Nodup) {property : Str → Prop}
    {field : Str × FieldSpec} (hmem : field ∈ cls) {name : Str} (hname : property name)
    (hwritten : WrittenUnder cls field name) (hpopulated : PopulatedFrom component cls property field name) :
    toCamel field.1 = name ∧ normalizeName field.1 = normalizeName name := by
  refine ⟨toCamel_of_writtenUnder hwritten, ?_⟩
  obtain ⟨mark, hmark⟩ : ∃ mark, field.2.default ≠ some (.bool mark) := by
    by_cases htrue : field.2.default = some (.bool true)
    · exact ⟨false, by rw [htrue]; decide⟩
    · exact ⟨true, htrue⟩
  have hdata : (Entries.keys [(name, Json.bool mark)]).Nodup := List.nodup_singleton name
  have hget := (argument_of_populated hnodup hmem hpopulated hdata (List.forall_mem_singleton.mpr hname)).2
  have hfolded : foldedMembers [(name, Json.bool mark)] = [(normalizeName name, .bool mark)] := rfl
  rw [argument, hfolded, Entries.get?_cons, Entries.get?_cons, if_pos rfl] at hget
  by_contra hne
  rw [if_neg fun heq => hne heq.symm] at hget
  exact hmark hget

theorem plainSchema_of_speaks (h : ObjectSchema schemas component schema)
    (hspeaks : SpeaksContract schemas component schema) : PlainSchema schemas schema := by
  obtain ⟨cls, hcls, hall⟩ := hspeaks
  have hnodup := nodup_generated hcls
  have hplain : ∀ name, HasProperty schemas schema name → PlainName name := by
    intro name hname
    obtain ⟨field, ⟨hmem, rfl, hwritten, hpopulated⟩, -⟩ := hall name hname
    obtain ⟨hcamel, hnormal⟩ := kept_of_field hnodup hmem hname hwritten hpopulated
    obtain ⟨origin, hidentifier, hfield⟩ := generated_origin h hcls hmem
    rw [hfield] at hcamel hnormal
    exact plainName_of_kept hidentifier hcamel hnormal
  obtain ⟨hbodies, hfields⟩ := (generated_iff h hplain).2 cls hcls
  refine ⟨hplain, ?_, ?_, hbodies⟩
  · intro a b ha hb heq
    by_contra hne
    obtain ⟨field, ⟨hmem, -, hwritten, hpopulated⟩, -⟩ := hall a ha
    obtain ⟨-, hnormal⟩ := kept_of_field hnodup hmem ha hwritten hpopulated
    -- the later one of two members with the same letters is read
    have hdata : (Entries.keys [(a, Json.bool true), (b, Json.bool false)]).Nodup := by
      simp [Entries.keys, hne]
    have hkeys : ∀ key ∈ Entries.keys [(a, Json.bool true), (b, Json.bool false)], HasProperty schemas schema key := by
      intro key hkey
      rcases List.mem_cons.mp hkey with rfl | hkey
      · exact ha
      · exact List.mem_singleton.mp hkey ▸ hb
    have hget := (argument_of_populated hnodup hmem hpopulated hdata hkeys).2
    have hfolded : foldedMembers [(a, Json.bool true), (b, Json.bool false)] = [(normalizeName a, .bool false)] := by
      unfold foldedMembers
      rw [List.map_cons, List.map_cons, List.map_nil, ← heq, Entries.update_cons, Entries.update_cons]
      show Entries.set _ _ [(normalizeName a, Json.bool true)] = _
      simp [Entries.set]
    rw [argument, hfolded, hnormal, Entries.get?_cons, if_pos rfl, Entries.get?_cons, if_pos rfl] at hget
    exact absurd hget (by simp)
  · intro name hname
    obtain ⟨field, ⟨hmem, rfl, -, hpopulated⟩, -⟩ := hall name hname
    obtain ⟨-, ancestor, hstated, hdefault⟩ := (hfields.2 field.1 field.2).mp (Entries.get?_of_mem hnodup hmem)
    refine ⟨ancestor, hstated, ?_⟩
    have hempty : (Entries.keys ([] : Fields)).Nodup := List.nodup_nil
    have hsome := (argument_of_populated hnodup hmem hpopulated hempty (List.forall_mem_nil _)).1 field hmem
    have hnone : argument [] field = field.2.default := rfl
    rw [hnone, hdefault] at hsome
    exact (isSome_defaultIn_iff hstated.mem).mp hsome

theorem speaks_of_plainSchema (h : ObjectSchema schemas component schema) (hschema : PlainSchema schemas schema) :
    SpeaksContract schemas component schema := by
  obtain ⟨hexists, hgenerated⟩ := generated_iff h hschema.plain
  obtain ⟨cls, hcls⟩ := hexists hschema.bodies
  obtain ⟨-, hnodup, hfields⟩ := hgenerated cls hcls
  -- every field is named after a property of the schema, and has a default
  have hfield : ∀ field ∈ cls, PlainName field.2.wireName ∧ field.1 = fieldAttribute field.2.wireName ∧
      field.2.default.isSome := by
    intro field hmem
    obtain ⟨hname, ancestor, hstated, hdefault⟩ := (hfields field.1 field.2).mp (Entries.get?_of_mem hnodup hmem)
    have hproperty := hasProperty_of_stated hstated
    obtain ⟨other, hother, hunshadowed⟩ := hschema.stated _ hproperty
    rw [stated_unique hother hstated] at hunshadowed
    refine ⟨hschema.plain _ hproperty, hname, ?_⟩
    rw [hdefault]
    exact (isSome_defaultIn_iff hstated.mem).mpr hunshadowed
  have hcamel : ((Entries.keys cls).map toCamel).Nodup := by
    refine hnodup.map_on ?_
    intro a ha b hb heq
    obtain ⟨first, hfirst, rfl⟩ := List.mem_map.mp ha
    obtain ⟨second, hsecond, rfl⟩ := List.mem_map.mp hb
    obtain ⟨hplain, hname, -⟩ := hfield first hfirst
    obtain ⟨hplainOther, hother, -⟩ := hfield second hsecond
    rw [hname, hother, hplain.toCamel_fieldAttribute, hplainOther.toCamel_fieldAttribute] at heq
    rw [hname, hother, heq]
  refine ⟨cls, hcls, ?_⟩
  intro name hname
  obtain ⟨ancestor, hstated, hunshadowed⟩ := hschema.stated name hname
  have hplain := hschema.plain name hname
  have hget : Entries.get? (fieldAttribute name) cls = some ⟨name, defaultIn (ownOf ancestor) name⟩ :=
    (hfields _ _).mpr ⟨rfl, ancestor, hstated, rfl⟩
  have hmem := Entries.mem_of_get? hget
  refine ⟨(fieldAttribute name, ⟨name, defaultIn (ownOf ancestor) name⟩), ⟨hmem, rfl, ?_, ?_⟩, ?_⟩
  · have hwritten := writtenUnder_of_apart hcamel hmem
    rwa [hplain.toCamel_fieldAttribute] at hwritten
  · intro data hdata hkeys
    have hsome : ∀ field ∈ cls, (argument data field).isSome := by
      intro field hmember
      rw [argument, Option.isSome_or, (hfield field hmember).2.2, Bool.or_true]
    refine ⟨_, ?_, (get?_arguments hnodup hsome hmem).trans ?_⟩
    · rw [toRequest_requestType, construct_eq_ok.mpr ⟨hsome, rfl⟩]
      rfl
    · rw [argument, hplain.normalizeName_fieldAttribute, get?_foldedMembers hdata]
      intro a ha b hb
      apply hschema.apart a b (hkeys a ha)
      rcases List.mem_cons.mp hb with rfl | hb
      · exact hname
      · exact hkeys b hb
  · rintro ⟨other, spec⟩ ⟨hother, rfl, -, -⟩
    obtain ⟨hnamed, second, hsecond, hdefault⟩ := (hfields other spec).mp (Entries.get?_of_mem hnodup hother)
    rw [stated_unique hsecond hstated] at hdefault
    rw [hnamed, ← hdefault]

-- A generated dataclass speaks its schema's names when they are plain, differ in more than
-- their case, and are stated where the class bodies that run read them.
theorem speaksContract_iff (h : ObjectSchema schemas component schema) :
    SpeaksContract schemas component schema ↔ PlainSchema schemas schema :=
  ⟨plainSchema_of_speaks h, speaks_of_plainSchema h⟩

end Contract

section Orders

-- An order, and an express order that is composed of one.
def orderSchema (property : Str) : Fields :=
  [Json.field "type" (.str "object"),
    Json.field "properties" (.obj [(property, .obj [Json.field "type" (.str "string")])])]

def orderReference : Fields := [Json.field "$ref" (.str "#/components/schemas/Order")]

def expressSchema : Fields :=
  [Json.field "allOf" (.arr [.obj orderReference]),
    Json.field "properties" (.obj [Json.field "class" (.obj [Json.field "type" (.str "integer")])])]

def orderSchemas (property : Str) : Fields :=
  [Json.field "Order" (.obj (orderSchema property)), Json.field "ExpressOrder" (.obj expressSchema)]

theorem hasProperty_iff {schemas schema : Fields} {name : Str} :
    HasProperty schemas schema name ↔ name ∈ Entries.keys (declared schema) ∨
      (∃ member ∈ members schema, HasProperty schemas member name) ∨
      ∃ component target, Contract.refName schema = some component ∧
        Entries.get? component schemas = some (.obj target) ∧ HasProperty schemas target name := by
  constructor
  · intro h
    cases h with
    | own h => exact .inl h
    | member hmember h => exact .inr (.inl ⟨_, hmember, h⟩)
    | reference href htarget h => exact .inr (.inr ⟨_, _, href, htarget, h⟩)
  · rintro (h | ⟨member, hmember, h⟩ | ⟨component, target, href, htarget, h⟩)
    · exact .own h
    · exact .member hmember h
    · exact .reference href htarget h

theorem order_isObject (property : Str) : ObjectSchema (orderSchemas property) "Order" (orderSchema property) := by
  apply ObjectSchema.root rfl _ rfl
  exact {
    object := rfl
    composed := by
      intro items h
      cases h
    mapped := by
      intro part hpart
      rw [List.mem_singleton.mp hpart]
      exact ⟨_, rfl, List.nodup_singleton property⟩ }

theorem express_isObject (property : Str) : ObjectSchema (orderSchemas property) "ExpressOrder" expressSchema := by
  apply ObjectSchema.derived rfl _ rfl (order_isObject property)
  exact {
    object := rfl
    composed := by
      intro items h
      cases h
      exact ⟨_, rfl⟩
    mapped := by
      intro part hpart
      rcases List.mem_cons.mp hpart with rfl | hpart
      · exact ⟨_, rfl, List.nodup_singleton _⟩
      · rw [List.mem_singleton.mp hpart]
        exact ⟨[], rfl, List.nodup_nil⟩ }

theorem order_hasProperty {property name : Str} :
    HasProperty (orderSchemas property) (orderSchema property) name ↔ name = property := by
  rw [hasProperty_iff]
  constructor
  · rintro (h | ⟨member, hmember, -⟩ | ⟨component, target, href, -⟩)
    · exact List.mem_singleton.mp h
    · cases hmember
    · cases href
  · rintro rfl
    exact .inl List.mem_cons_self

theorem express_hasProperty {property name : Str} :
    HasProperty (orderSchemas property) expressSchema name ↔ name = "class" ∨ name = property := by
  rw [hasProperty_iff]
  constructor
  · rintro (h | ⟨member, hmember, h⟩ | ⟨component, target, href, -⟩)
    · exact .inl (List.mem_singleton.mp h)
    · rw [List.mem_singleton.mp hmember, hasProperty_iff] at h
      rcases h with h | ⟨other, hother, -⟩ | ⟨component, target, href, htarget, h⟩
      · cases h
      · cases hother
      · have hcomponent : some ("Order" : Str) = some component := href
        cases hcomponent
        have hschema : some (Json.obj (orderSchema property)) = some (.obj target) := htarget
        cases hschema
        exact .inr (order_hasProperty.mp h)
    · cases href
  · rintro (rfl | rfl)
    · exact .inl List.mem_cons_self
    · exact .inr (.inl ⟨orderReference, List.mem_cons_self,
        .reference rfl rfl (order_hasProperty.mpr rfl)⟩)

theorem mem_of_mem_earlier {own : Fields} {name other : Str} (h : other ∈ earlier own name) :
    other ∈ Entries.keys own :=
  ((List.takeWhile_sublist _).map Prod.fst).subset h

-- The order's identifier is inherited, and a keyword is a property like any other.
theorem express_speaks :
    letI := UnicodeData.ascii
    letI := IdentifierData.ascii
    SpeaksContract (orderSchemas "orderId") "ExpressOrder" expressSchema := by
  let _ := UnicodeData.ascii
  let _ := IdentifierData.ascii
  apply (speaksContract_iff (express_isObject "orderId")).mpr
  have hclass : PlainName ("class" : Str) := by
    rw [PlainName, if_neg (by decide)]
    decide
  have horder : PlainName ("orderId" : Str) := by
    rw [PlainName, if_neg (by decide)]
    decide
  exact {
    plain := by
      intro name hname
      rcases express_hasProperty.mp hname with rfl | rfl
      · exact hclass
      · exact horder
    apart := by
      intro a b ha hb
      rcases express_hasProperty.mp ha with rfl | rfl <;> rcases express_hasProperty.mp hb with rfl | rfl <;> decide
    stated := by
      intro name hname
      rcases express_hasProperty.mp hname with rfl | rfl
      · have hfirst : earlier (ownOf expressSchema) "class" = [] := rfl
        refine ⟨expressSchema, .here (by decide), ?_⟩
        intro default factory _ _
        rw [hfirst]
        exact List.not_mem_nil
      · have hfirst : earlier (ownOf (orderSchema "orderId")) "orderId" = [] := rfl
        refine ⟨orderSchema "orderId", .above (by decide) rfl rfl (.here (by decide)), ?_⟩
        intro default factory _ _
        rw [hfirst]
        exact List.not_mem_nil
    bodies := by
      refine .derived rfl rfl (.root rfl ?_) ?_
      · exact fun _ _ _ _ hmem => absurd (mem_of_mem_earlier hmem) (by decide)
      · exact fun _ _ _ _ hmem => absurd (mem_of_mem_earlier hmem) (by decide) }

-- A name in snake case is not written as it is: `order_id` comes as `orderId`.
theorem order_unspoken :
    letI := UnicodeData.ascii
    letI := IdentifierData.ascii
    ObjectSchema (orderSchemas "order_id") "Order" (orderSchema "order_id") ∧
      ¬SpeaksContract (orderSchemas "order_id") "Order" (orderSchema "order_id") := by
  let _ := UnicodeData.ascii
  let _ := IdentifierData.ascii
  refine ⟨order_isObject "order_id", ?_⟩
  intro hspeaks
  have hplain := (plainSchema_of_speaks (order_isObject "order_id") hspeaks).plain "order_id"
    (order_hasProperty.mpr rfl)
  rw [PlainName, if_neg (by decide)] at hplain
  revert hplain
  decide

end Orders

end Benzene.Codegen
