import Benzene.Contract.Alike
import Benzene.Contract.Collision

namespace Benzene.Contract.Derivation

open Benzene.Data
open Benzene.Mesh (Member)

section Keywords

variable (rename : Str → Str)

-- One keyword, where components have other names.
inductive KeywordAlike : Str → Json → Json → Prop
  | reference {v w : Json} : KeywordAlike "$ref" v w
  | note {key : Str} {v w : Json} (h : annotates key = true) : KeywordAlike key v w
  | plain {key : Str} {v w : Json} (hposition : position key = .plain) (h : PlainAlike key v w) : KeywordAlike key v w
  | schema {key : Str} {v w : Json} (hposition : position key ≠ .plain) (h : Alike rename (position key) v w) :
      KeywordAlike key v w

-- Schemas with the same keywords in the same order, where components have other names.
structure SchemaAlike (a b : Fields) : Prop where
  nodup : (Entries.keys a).Nodup
  keywords : Entries.Related (KeywordAlike rename) a b
  reference : ("$ref" : Str) ∉ Entries.keys a ∨ ∃ name, refName a = some name ∧ refName b = some (rename name)

variable {rename} {a b : Fields}

theorem refName_of_notMem {fields : Fields} (h : ("$ref" : Str) ∉ Entries.keys fields) : refName fields = none := by
  unfold refName Json.getField
  rw [(Entries.get?_eq_none_iff _ _).mpr h]
  rfl

theorem SchemaAlike.alike (h : SchemaAlike rename a b) : Contract.Alike rename .schema (.obj a) (.obj b) := by
  rcases h.reference with hnone | ⟨name, ha, hb⟩
  · have hnone' : ("$ref" : Str) ∉ Entries.keys b := by
      rw [← h.keywords.keys_eq]
      exact hnone
    refine .keywords h.nodup (by rw [← h.keywords.keys_eq]; exact h.nodup) (refName_of_notMem hnone)
      (refName_of_notMem hnone') ?_ ?_ ?_
    · intro key _
      rw [Entries.get?_eq_none_iff, Entries.get?_eq_none_iff, h.keywords.keys_eq]
    · intro key v w hannotates hposition hv hw
      cases h.keywords.get? hv hw with
      | reference => exact absurd ((Entries.get?_eq_none_iff _ _).mpr hnone) (by rw [hv]; simp)
      | note hkey => rw [hannotates] at hkey; cases hkey
      | plain _ hplain => exact hplain
      | schema hkey _ => exact absurd hposition hkey
    · intro key v w hannotates hposition hv hw
      cases h.keywords.get? hv hw with
      | reference => exact absurd ((Entries.get?_eq_none_iff _ _).mpr hnone) (by rw [hv]; simp)
      | note hkey => rw [hannotates] at hkey; cases hkey
      | plain hkey _ => exact absurd hkey hposition
      | schema _ hschema => exact hschema
  · exact .reference ha hb

theorem alike_str {key : Str} (hposition : position key = .plain) (text : Str) :
    KeywordAlike rename key (.str text) (.str text) :=
  .plain hposition (.same fun _ _ h => nomatch h)

theorem alike_bool {key : Str} (hposition : position key = .plain) (b : Bool) :
    KeywordAlike rename key (.bool b) (.bool b) :=
  .plain hposition (.same fun _ _ h => nomatch h)

theorem schemaAlike_nil : SchemaAlike rename [] [] where
  nodup := List.nodup_nil
  keywords := .nil
  reference := .inl List.not_mem_nil

theorem schemaAlike_typed (name : Str) : SchemaAlike rename (typed name) (typed name) where
  nodup := List.nodup_singleton _
  keywords := .cons ⟨rfl, alike_str rfl _⟩ .nil
  reference := .inl (by simp [typed])

theorem schemaAlike_formatted (name format : Str) :
    SchemaAlike rename (formatted name format) (formatted name format) where
  nodup := by simp [formatted]
  keywords := .cons ⟨rfl, alike_str rfl _⟩ (.cons ⟨rfl, .note rfl⟩ .nil)
  reference := .inl (by simp [formatted])

theorem position_items : position "items" ≠ .plain := by decide

theorem position_additionalProperties : position "additionalProperties" ≠ .plain := by decide

theorem enum_ne_required : ("enum" : Str) ≠ "required" := by decide

theorem schemaAlike_array (h : SchemaAlike rename a b) : SchemaAlike rename (arraySchema a) (arraySchema b) where
  nodup := by simp [arraySchema]
  keywords := .cons ⟨rfl, alike_str rfl _⟩ (.cons ⟨rfl, .schema position_items h.alike⟩ .nil)
  reference := .inl (by simp [arraySchema])

theorem schemaAlike_map (h : SchemaAlike rename a b) : SchemaAlike rename (mapSchema a) (mapSchema b) where
  nodup := by simp [mapSchema]
  keywords := .cons ⟨rfl, alike_str rfl _⟩ (.cons ⟨rfl, .schema position_additionalProperties h.alike⟩ .nil)
  reference := .inl (by simp [mapSchema])

theorem schemaAlike_enum (name : Str) (values : List Scalar) :
    SchemaAlike rename (enumSchema name values) (enumSchema name values) where
  nodup := by simp [enumSchema]
  keywords := .cons ⟨rfl, alike_str rfl _⟩ (.cons ⟨rfl, .plain rfl (.same fun h => absurd h enum_ne_required)⟩ .nil)
  reference := .inl (by simp [enumSchema])

theorem schemaAlike_reference (name : Str) : SchemaAlike rename (reference name) (reference (rename name)) where
  nodup := List.nodup_singleton _
  keywords := .cons ⟨rfl, .reference⟩ .nil
  reference := .inr ⟨name, Str.stripPrefix?_eq_some.mpr rfl, Str.stripPrefix?_eq_some.mpr rfl⟩

theorem refName_set {key : Str} (hkey : key ≠ "$ref") (value : Json) (fields : Fields) :
    refName (Entries.set key value fields) = refName fields := by
  unfold refName Json.getField
  rw [Entries.get?_set, if_neg hkey]

theorem nullable_ne_ref : ("nullable" : Str) ≠ "$ref" := by decide

theorem SchemaAlike.set_nullable (h : SchemaAlike rename a b) :
    SchemaAlike rename (Entries.set "nullable" (.bool true) a) (Entries.set "nullable" (.bool true) b) where
  nodup := Entries.nodup_keys_set h.nodup
  keywords := h.keywords.set (alike_bool rfl true)
  reference := by
    rcases h.reference with hnone | ⟨name, ha, hb⟩
    · left
      rw [Entries.mem_keys_set]
      rintro (heq | hmem)
      · exact nullable_ne_ref heq.symm
      · exact hnone hmem
    · right
      refine ⟨name, ?_, ?_⟩
      · rw [refName_set nullable_ne_ref, ha]
      · rw [refName_set nullable_ne_ref, hb]

theorem schemaAlike_wrapper (name : Str) (h : SchemaAlike rename a b) :
    SchemaAlike rename
      [Json.field "type" (.str name), Json.field "nullable" (.bool true), Json.field "allOf" (.arr [.obj a])]
      [Json.field "type" (.str name), Json.field "nullable" (.bool true), Json.field "allOf" (.arr [.obj b])] where
  nodup := by simp
  keywords := by
    have hbranches : Contract.Alike rename .branches (.arr [.obj a]) (.arr [.obj b]) := by
      refine .branches rfl ?_
      intro pair hpair
      cases List.mem_singleton.mp hpair
      exact h.alike
    exact .cons ⟨rfl, alike_str rfl _⟩ (.cons ⟨rfl, alike_bool rfl _⟩
      (.cons ⟨rfl, .schema (by rw [show position _ = .branches from rfl]; simp) hbranches⟩ .nil))
  reference := .inl (by simp)

theorem SchemaAlike.apply (h : SchemaAlike rename a b) (wrap : Wrap) :
    SchemaAlike rename (wrap.apply a) (wrap.apply b) := by
  cases wrap with
  | same => exact h
  | array => exact schemaAlike_array h
  | map => exact schemaAlike_map h
  | nullable refType =>
      have hempty : a = [] ↔ b = [] := by
        have hlength := h.keywords.length_eq
        rw [← List.length_eq_zero_iff, ← List.length_eq_zero_iff, hlength]
      have href : (Entries.get? ("$ref" : Str) a).isSome = (Entries.get? ("$ref" : Str) b).isSome := by
        rw [Bool.eq_iff_iff, ← not_iff_not, Option.not_isSome_iff_eq_none, Option.not_isSome_iff_eq_none,
          Entries.get?_eq_none_iff, Entries.get?_eq_none_iff, h.keywords.keys_eq]
      show SchemaAlike rename (nullable a refType) (nullable b refType)
      unfold nullable
      by_cases hnil : a = []
      · rw [if_pos hnil, if_pos (hempty.mp hnil)]
        exact h
      · rw [if_neg hnil, if_neg fun hb => hnil (hempty.mpr hb)]
        cases refType with
        | none => exact h.set_nullable
        | some name =>
            dsimp only
            rw [← href]
            split
            · exact schemaAlike_wrapper name h
            · exact h.set_nullable

theorem schemaAlike_leaf {schema : Fields} (h : Leaf schema) : SchemaAlike rename schema schema := by
  cases h with
  | any => exact schemaAlike_nil
  | array => exact schemaAlike_array schemaAlike_nil
  | map => exact schemaAlike_map schemaAlike_nil
  | primitive primitive =>
      cases primitive with
      | bool | int | str | time | decimal => exact schemaAlike_typed _
      | float | bytes | datetime | date | timedelta | uuid => exact schemaAlike_formatted _ _
  | path => exact schemaAlike_typed _
  | literal name scalars nullable =>
      have henum := @schemaAlike_enum rename name scalars
      unfold literalOf
      cases nullable with
      | false =>
          show SchemaAlike rename (enumSchema name scalars ++ []) (enumSchema name scalars ++ [])
          rw [List.append_nil]
          exact henum
      | true => exact henum.set_nullable

end Keywords

section Outlines

variable {rename : Str → Str} {program : Program} {called called' : PyType → Str}

theorem schemaAlike_outline {context : Context} {pyType : PyType} {outline : Outline}
    (h : Describes program context pyType outline)
    (hcalled : ∀ key ∈ outline.ending.keys, called' key = rename (called key)) :
    SchemaAlike rename (outline.write called) (outline.write called') := by
  induction h with
  | schema hrule => exact schemaAlike_leaf (rule_leaf hrule)
  | @component _ _ key _ =>
      show SchemaAlike rename (reference (called key)) (reference (called' key))
      rw [hcalled key (List.mem_singleton_self _)]
      exact schemaAlike_reference _
  | within _ _ ih => exact (ih hcalled).apply _

theorem schemaAlike_property {context : Context} {property : Property} {described : Property × Outline}
    (h : DescribesProperty program context property described)
    (hcalled : ∀ key ∈ described.2.ending.keys, called' key = rename (called key)) :
    SchemaAlike rename (described.2.write called) (described.2.write called') := by
  obtain ⟨-, h⟩ := h
  cases htype : property.pyType with
  | none =>
      rw [htype] at h
      rw [h]
      exact schemaAlike_nil
  | some pyType =>
      rw [htype] at h
      exact schemaAlike_outline h hcalled

theorem alike_properties {a b : Fields} (h : Entries.Related (fun _ v w => Contract.Alike rename .schema v w) a b) :
    Contract.Alike rename .properties (.obj (Entries.update [] a)) (.obj (Entries.update [] b)) := by
  have hupdate : Entries.Related (fun _ v w => Contract.Alike rename .schema v w) (Entries.update [] a)
      (Entries.update [] b) := Entries.Related.update .nil h
  refine .properties (Entries.nodup_keys_update _ _ List.nodup_nil) (Entries.nodup_keys_update _ _ List.nodup_nil) ?_ ?_
  · intro key
    rw [Entries.get?_eq_none_iff, Entries.get?_eq_none_iff, hupdate.keys_eq]
  · intro key v w hv hw
    exact hupdate.get? hv hw

theorem position_properties_ne : position "properties" ≠ .plain := by decide

theorem schemaAlike_record {a b : Fields} {required : List Str} (hencodable : ∀ name ∈ required, name.Encodable)
    (h : Entries.Related (fun _ v w => Contract.Alike rename .schema v w) a b) :
    SchemaAlike rename (recordSchema a required) (recordSchema b required) := by
  have hproperties : KeywordAlike rename "properties" (.obj (Entries.update [] a)) (.obj (Entries.update [] b)) :=
    .schema position_properties_ne (alike_properties h)
  unfold recordSchema
  by_cases hrequired : required = []
  · subst hrequired
    exact ⟨by simp [Json.fieldIf], .cons ⟨rfl, alike_str rfl _⟩ (.cons ⟨rfl, hproperties⟩ .nil),
      .inl (by simp [Json.fieldIf])⟩
  · simp only [Json.fieldIf, hrequired, ne_eq, not_false_eq_true, decide_true, if_true]
    exact ⟨by simp, .cons ⟨rfl, alike_str rfl _⟩ (.cons ⟨rfl, hproperties⟩
      (.cons ⟨rfl, .plain rfl (.required hencodable (List.Perm.refl _))⟩ .nil)), .inl (by simp)⟩

theorem schemaAlike_blueprint [UnicodeData] {context : Context} {key : PyType} {blueprint : Blueprint}
    (h : DescribesContent program (content program context key) blueprint)
    (hcalled : ∀ key ∈ blueprint.keys, called' key = rename (called key))
    (hencodable : ∀ inner properties, content program context key = .record inner properties →
      ∀ property ∈ properties, property.name.Encodable) :
    SchemaAlike rename (blueprint.derived called).1 (blueprint.derived called').1 := by
  generalize hcontent : content program context key = derivedContent at h
  cases h with
  | schema schema =>
      cases content_leaf hcontent with
      | any => exact schemaAlike_nil
      | values name values => exact schemaAlike_enum name values
  | @record inner properties described h =>
      have hnames : ∀ property ∈ described, property.1.name.Encodable := by
        intro property hproperty
        obtain ⟨source, hsource, hdescribes⟩ := exists_of_mem_right h hproperty
        rw [hdescribes.1]
        exact hencodable inner properties hcontent source hsource
      simp only [Blueprint.derived, derivedProperties, List.map_map, List.filter_map]
      apply schemaAlike_record
      · intro name hname
        obtain ⟨property, hproperty, rfl⟩ := List.mem_map.mp hname
        exact hnames property (List.mem_filter.mp hproperty).1
      · have hall : ∀ property ∈ described, Contract.Alike rename .schema (.obj (property.2.write called))
            (.obj (property.2.write called')) := by
          intro property hproperty
          obtain ⟨source, -, hdescribes⟩ := exists_of_mem_right h hproperty
          exact (schemaAlike_property hdescribes fun key hkey =>
            hcalled key (List.mem_flatMap.mpr ⟨property, hproperty, hkey⟩)).alike
        clear h hnames hcalled
        induction described with
        | nil => exact .nil
        | cons property rest ih =>
            exact .cons ⟨rfl, hall property List.mem_cons_self⟩
              (ih fun other hother => hall other (List.mem_cons_of_mem _ hother))

end Outlines

section Tokens

variable [UnicodeData]

-- The components of everything that is met.
structure Complete (program : Program) (start : Context → PyType → Prop) (components : List Component) : Prop where
  ordered : Ordered components
  settled : ∀ component ∈ components, Settled program start components component
  hoists : ∀ key, Hoists program start key ↔ key ∈ keysOf components
  encodable : ∀ context pyType key inner properties, Met program start context pyType →
    rule program context pyType = .component key → content program context key = .record inner properties →
    ∀ property ∈ properties, property.name.Encodable

variable {program : Program} {start : Context → PyType → Prop} {components components' : List Component}

theorem Complete.renames (h : Complete program start components) {keys : List PyType}
    (hkeys : ∀ key ∈ keys, key ∈ keysOf components) :
    Renames (finalNames components) (tokenOf components) (componentName program) keys :=
  h.ordered.renames (fun component hmem => (h.settled component hmem).1) hkeys

theorem Complete.length_eq (h : Complete program start components) (h' : Complete program start components') :
    components.length = components'.length := by
  have hperm : (keysOf components).Perm (keysOf components') := by
    rw [List.perm_ext_iff_of_nodup h.ordered.nodup h'.ordered.nodup]
    intro key
    rw [← h.hoists, ← h'.hoists]
  have hlength := hperm.length_eq
  unfold keysOf at hlength
  rwa [List.length_map, List.length_map] at hlength

-- The token that stands in the one catalogue for what a token stands for in the other.
def retoken (components components' : List Component) (text : Str) : Str :=
  match components.find? fun component => component.token = text with
  | some component => tokenOf components' component.key
  | none => text

omit [UnicodeData] in
theorem retoken_of_mem (h : Ordered components) {component : Component} (hmem : component ∈ components) :
    retoken components components' component.token = tokenOf components' component.key := by
  unfold retoken
  have hsome : (components.find? fun other => other.token = component.token).isSome := by
    rw [List.find?_isSome]
    exact ⟨component, hmem, by simp⟩
  obtain ⟨found, hfind⟩ := Option.isSome_iff_exists.mp hsome
  have htoken : found.token = component.token := by simpa using List.find?_some hfind
  rw [hfind, List.inj_on_of_nodup_map h.nodup_tokens (List.mem_of_find?_eq_some hfind) hmem htoken]

omit [UnicodeData] in
theorem retoken_of_notMem {text : Str} (h : text ∉ components.map fun component => component.token) :
    retoken components components' text = text := by
  unfold retoken
  have hnone : (components.find? fun component => component.token = text) = none := by
    rw [List.find?_eq_none]
    intro component hmem heq
    exact h (List.mem_map.mpr ⟨component, hmem, by simpa using heq⟩)
  rw [hnone]

theorem Complete.counterpart (h : Complete program start components) (h' : Complete program start components')
    {component : Component} (hmem : component ∈ components) :
    ∃ other ∈ components', other.key = component.key :=
  mem_keysOf.mp ((h'.hoists _).mp ((h.hoists _).mpr (mem_keysOf.mpr ⟨component, hmem, rfl⟩)))

theorem Complete.retoken_mem (h : Complete program start components) (h' : Complete program start components')
    {component : Component} (hmem : component ∈ components) :
    ∃ other ∈ components', other.key = component.key ∧
      retoken components components' component.token = other.token := by
  obtain ⟨other, hother, hkey⟩ := h.counterpart h' hmem
  refine ⟨other, hother, hkey, ?_⟩
  rw [retoken_of_mem h.ordered hmem, ← hkey, tokenOf_of_mem h'.ordered.nodup hother]

theorem Complete.retoken_injective (h : Complete program start components) (h' : Complete program start components') :
    Function.Injective (retoken components components') := by
  have htokens :
      components.map (fun component => component.token) = components'.map fun component => component.token := by
    rw [h.ordered.tokens, h'.ordered.tokens, h.length_eq h']
  intro a b heq
  by_cases ha : a ∈ components.map fun component => component.token
  · obtain ⟨first, hfirst, rfl⟩ := List.mem_map.mp ha
    obtain ⟨other, hother, hkey, htoken⟩ := h.retoken_mem h' hfirst
    by_cases hb : b ∈ components.map fun component => component.token
    · obtain ⟨second, hsecond, rfl⟩ := List.mem_map.mp hb
      obtain ⟨other', hother', hkey', htoken'⟩ := h.retoken_mem h' hsecond
      rw [htoken, htoken'] at heq
      have hsame := List.inj_on_of_nodup_map h'.ordered.nodup_tokens hother hother' heq
      rw [List.inj_on_of_nodup_map h.ordered.nodup hfirst hsecond (by rw [← hkey, ← hkey', hsame])]
    · rw [retoken_of_notMem hb, htoken] at heq
      rw [htokens] at hb
      exact absurd (List.mem_map.mpr ⟨other, hother, heq⟩) hb
  · rw [retoken_of_notMem ha] at heq
    by_cases hb : b ∈ components.map fun component => component.token
    · obtain ⟨second, hsecond, rfl⟩ := List.mem_map.mp hb
      obtain ⟨other, hother, -, htoken⟩ := h.retoken_mem h' hsecond
      rw [htoken] at heq
      rw [htokens] at ha
      exact absurd (List.mem_map.mpr ⟨other, hother, heq.symm⟩) ha
    · rwa [retoken_of_notMem hb] at heq

omit [UnicodeData] in
theorem get?_byToken (h : Ordered components) {component : Component} (hmem : component ∈ components) :
    Entries.get? component.token (byToken components) = some (.obj component.schema) := by
  apply Entries.get?_of_mem
  · unfold Entries.keys byToken
    rw [List.map_map]
    exact h.nodup_tokens
  · exact List.mem_map_of_mem hmem

omit [UnicodeData] in
theorem mem_keys_byToken {text : Str} :
    text ∈ Entries.keys (byToken components) ↔ text ∈ components.map fun component => component.token := by
  unfold Entries.keys byToken
  rw [List.map_map]
  exact Iff.rfl

theorem Complete.schemaAlike (h : Complete program start components) (h' : Complete program start components')
    (hapart : Apart program start) {component other : Component} (hmem : component ∈ components)
    (hother : other ∈ components') (hkey : other.key = component.key) :
    SchemaAlike (retoken components components') component.schema other.schema := by
  obtain ⟨-, -, context, pyType, blueprint, hmet, hrule, hdescribes, hderived, hkeys⟩ := h.settled component hmem
  obtain ⟨-, -, context', pyType', blueprint', hmet', hrule', hdescribes', hderived', -⟩ := h'.settled other hother
  have hsame : blueprint' = blueprint := by
    rw [hkey] at hrule' hdescribes'
    exact ((hapart.content_iff hmet' hrule').mp hdescribes').unique ((hapart.content_iff hmet hrule).mp hdescribes)
  subst hsame
  have hschema : component.schema = (blueprint'.derived (tokenOf components)).1 := by rw [← hderived]
  have hschema' : other.schema = (blueprint'.derived (tokenOf components')).1 := by rw [← hderived']
  rw [hschema, hschema']
  apply schemaAlike_blueprint hdescribes
  · intro key hkey
    obtain ⟨target, htarget, rfl⟩ := mem_keysOf.mp (hkeys key hkey)
    rw [tokenOf_of_mem h.ordered.nodup htarget, retoken_of_mem h.ordered htarget]
  · intro inner properties hcontent
    exact h.encodable context pyType component.key inner properties hmet hrule hcontent

theorem Complete.cataloguesAlike (h : Complete program start components) (h' : Complete program start components')
    (hapart : Apart program start) :
    CataloguesAlike (retoken components components') (byToken components) (byToken components') where
  keys := by
    have htokens :
        components.map (fun component => component.token) = components'.map fun component => component.token := by
      rw [h.ordered.tokens, h'.ordered.tokens, h.length_eq h']
    intro text
    rw [Entries.get?_eq_none_iff, Entries.get?_eq_none_iff, mem_keys_byToken, mem_keys_byToken, not_iff_not]
    by_cases hmem : text ∈ components.map fun component => component.token
    · obtain ⟨component, hcomponent, rfl⟩ := List.mem_map.mp hmem
      obtain ⟨other, hother, -, htoken⟩ := h.retoken_mem h' hcomponent
      rw [htoken]
      exact ⟨fun _ => List.mem_map_of_mem hother, fun _ => hmem⟩
    · rw [retoken_of_notMem hmem, htokens]
  components := by
    intro text v w hv hw
    have hmem : text ∈ components.map fun component => component.token := by
      rw [← mem_keys_byToken]
      exact List.mem_map_of_mem (f := Prod.fst) (Entries.mem_of_get? hv)
    obtain ⟨component, hcomponent, rfl⟩ := List.mem_map.mp hmem
    obtain ⟨other, hother, hkey, htoken⟩ := h.retoken_mem h' hcomponent
    rw [get?_byToken h.ordered hcomponent] at hv
    rw [htoken, get?_byToken h'.ordered hother] at hw
    cases hv
    cases hw
    exact (h.schemaAlike h' hapart hcomponent hother hkey).alike

-- A component is normalized to one schema, whatever the tokens.
theorem Complete.normalize_agree (h : Complete program start components) (h' : Complete program start components')
    (hapart : Apart program start) {component other : Component} (hmem : component ∈ components)
    (hother : other ∈ components') (hkey : other.key = component.key) :
    Agree (normalizeSchema (byToken components) (.obj component.schema))
      (normalizeSchema (byToken components') (.obj other.schema)) :=
  normalize_alike (h.retoken_injective h') (h.cataloguesAlike h' hapart)
    (h.schemaAlike h' hapart hmem hother hkey).alike

end Tokens

section Finishing

variable [UnicodeData] {program : Program} {start : Context → PyType → Prop} {components components' : List Component}
  {entryRefs entryRefs' : EntryRefs}

-- A type's topics are the same in two catalogues.
def SameTopics (components components' : List Component) (entryRefs entryRefs' : EntryRefs) : Prop :=
  ∀ key ∈ keysOf components, ∀ topic,
    topic ∈ topicsOf components entryRefs key ↔ topic ∈ topicsOf components' entryRefs' key

-- No two hoisted types that claim one name have one qualified name.
def Qualifies (program : Program) (start : Context → PyType → Prop) : Prop :=
  ∀ a b, Hoists program start a → Hoists program start b → componentName program a = componentName program b →
    qualified program a = qualified program b → a = b

theorem Complete.groupNames_eq (h : Complete program start components) (h' : Complete program start components') :
    groupNames components = groupNames components' := by
  apply Str.eq_of_strict (Str.sorted_strict (nodup_distinct _)) (Str.sorted_strict (nodup_distinct _))
  intro name
  show name ∈ groupNames components ↔ name ∈ groupNames components'
  rw [mem_groupNames, mem_groupNames]
  constructor
  · rintro ⟨component, hmem, rfl⟩
    obtain ⟨other, hother, hkey⟩ := h.counterpart h' hmem
    refine ⟨other, hother, ?_⟩
    rw [(h'.settled other hother).1, hkey, (h.settled component hmem).1]
  · rintro ⟨component, hmem, rfl⟩
    obtain ⟨other, hother, hkey⟩ := h'.counterpart h hmem
    refine ⟨other, hother, ?_⟩
    rw [(h.settled other hother).1, hkey, (h'.settled component hmem).1]

theorem Complete.group_keys (h : Complete program start components) (name : Str) :
    keysOf (group components name) =
      sortOn (qualified program) (keysOf (components.filter fun component => component.name = name)) := by
  unfold keysOf group
  apply sortOn_map
  intro component hmem
  exact (h.settled component (List.mem_filter.mp hmem).1).2.1

theorem Complete.group_eq (h : Complete program start components) (h' : Complete program start components')
    (hqualifies : Qualifies program start) (name : Str) :
    keysOf (group components name) = keysOf (group components' name) := by
  rw [h.group_keys, h'.group_keys]
  have hmem : ∀ {components : List Component}, Complete program start components → ∀ key,
      key ∈ keysOf (components.filter fun component => component.name = name) ↔
        Hoists program start key ∧ componentName program key = name := by
    intro components h key
    rw [mem_keysOf, h.hoists]
    constructor
    · rintro ⟨component, hcomponent, rfl⟩
      obtain ⟨hcomponent, hname⟩ := List.mem_filter.mp hcomponent
      rw [decide_eq_true_eq, (h.settled component hcomponent).1] at hname
      exact ⟨mem_keysOf.mpr ⟨component, hcomponent, rfl⟩, hname⟩
    · rintro ⟨hkey, hname⟩
      obtain ⟨component, hcomponent, rfl⟩ := mem_keysOf.mp hkey
      refine ⟨component, List.mem_filter.mpr ⟨hcomponent, ?_⟩, rfl⟩
      rw [decide_eq_true_eq, (h.settled component hcomponent).1]
      exact hname
  have hnodup : ∀ {components : List Component}, Complete program start components →
      (keysOf (components.filter fun component => component.name = name)).Nodup := fun h =>
    h.ordered.nodup.sublist (List.filter_sublist.map _)
  apply sortOn_eq_of_perm
  · rw [List.perm_ext_iff_of_nodup (hnodup h) (hnodup h')]
    intro key
    rw [hmem h, hmem h']
  · intro a ha b hb hsame
    obtain ⟨ha, hnameA⟩ := (hmem h a).mp ha
    obtain ⟨hb, hnameB⟩ := (hmem h b).mp hb
    exact hqualifies a b ha hb (hnameA.trans hnameB.symm) hsame

theorem Complete.published_eq (h : Complete program start components) (h' : Complete program start components')
    (hapart : Apart program start) {component other : Component} (hmem : component ∈ components)
    (hother : other ∈ components') (hkey : other.key = component.key) :
    rename (finalNames components') (.obj other.schema) = rename (finalNames components) (.obj component.schema) := by
  obtain ⟨-, -, context, pyType, blueprint, hmet, hrule, hdescribes, hderived, hkeys⟩ := h.settled component hmem
  obtain ⟨-, -, context', pyType', blueprint', hmet', hrule', hdescribes', hderived', hkeys'⟩ := h'.settled other hother
  have hsame : blueprint' = blueprint := by
    have hrule'' := hrule'
    have hdescribes'' := hdescribes'
    rw [hkey] at hrule'' hdescribes''
    exact ((hapart.content_iff hmet' hrule'').mp hdescribes'').unique ((hapart.content_iff hmet hrule).mp hdescribes)
  subst hsame
  have hschema : component.schema = (blueprint'.derived (tokenOf components)).1 := by rw [← hderived]
  have hschema' : other.schema = (blueprint'.derived (tokenOf components')).1 := by rw [← hderived']
  rw [hschema, hschema', rename_blueprint hdescribes (h.renames hkeys),
    rename_blueprint hdescribes' (h'.renames hkeys')]

theorem Complete.collisionOf_eq (h : Complete program start components) (h' : Complete program start components')
    (htopics : SameTopics components components' entryRefs entryRefs') {first other first' other' : Component}
    (hfirst : first ∈ components) (hother : other ∈ components) (hfirst' : first' ∈ components')
    (hother' : other' ∈ components') (hfirstKey : first'.key = first.key) (hotherKey : other'.key = other.key) :
    collisionOf components entryRefs first other = collisionOf components' entryRefs' first' other' := by
  have hlists : Str.sorted (distinct (topicsOf components entryRefs first.key ++
        topicsOf components entryRefs other.key)) =
      Str.sorted (distinct (topicsOf components' entryRefs' first'.key ++
        topicsOf components' entryRefs' other'.key)) := by
    apply Str.eq_of_strict (Str.sorted_strict (nodup_distinct _)) (Str.sorted_strict (nodup_distinct _))
    intro topic
    rw [(Str.sorted_perm _).mem_iff, (Str.sorted_perm _).mem_iff, mem_distinct, mem_distinct, List.mem_append,
      List.mem_append, hfirstKey, hotherKey, htopics first.key (mem_keysOf.mpr ⟨first, hfirst, rfl⟩) topic,
      htopics other.key (mem_keysOf.mpr ⟨other, hother, rfl⟩) topic]
  obtain ⟨hname, hqualified, -⟩ := h.settled first hfirst
  obtain ⟨hname', hqualified', -⟩ := h'.settled first' hfirst'
  unfold collisionOf
  rw [hlists, hname, hname', hfirstKey, hqualified, hqualified', hfirstKey, (h.settled other hother).2.1,
    (h'.settled other' hother').2.1, hotherKey]

-- Components are normalized in any order, to what is written alike.
theorem Complete.normalizeComponent_agree (h : Complete program start components)
    (h' : Complete program start components') (hapart : Apart program start) {component other : Component}
    (hmem : component ∈ components) (hother : other ∈ components') (hkey : other.key = component.key) :
    ∃ a b, normalizeComponent components component = .ok a ∧ normalizeComponent components' other = .ok b ∧
      a.canonical = b.canonical := by
  obtain ⟨a, b, ha, hb, hsame⟩ := h.normalize_agree h' hapart hmem hother hkey
  exact ⟨a, b, normalizeComponent_ok.mpr ha, normalizeComponent_ok.mpr hb, hsame⟩

theorem Complete.checkGroup_eq (h : Complete program start components) (h' : Complete program start components')
    (hapart : Apart program start) (htopics : SameTopics components components' entryRefs entryRefs')
    {first first' : Component} {reference reference' : Json} {others others' : List Component}
    (hfirst : first ∈ components) (hfirst' : first' ∈ components') (hkey : first'.key = first.key)
    (hreference : reference.canonical = reference'.canonical) (hothers : ∀ other ∈ others, other ∈ components)
    (hothers' : ∀ other ∈ others', other ∈ components') (hkeys : keysOf others = keysOf others') :
    checkGroup components entryRefs first reference others =
      checkGroup components' entryRefs' first' reference' others' := by
  induction others generalizing others' with
  | nil =>
      cases List.map_eq_nil_iff.mp hkeys.symm
      rfl
  | cons other rest ih =>
      cases others' with
      | nil => cases hkeys
      | cons other' rest' =>
          obtain ⟨hother, hrest⟩ := List.cons.inj hkeys
          obtain ⟨hmem, hothers⟩ := List.forall_mem_cons.mp hothers
          obtain ⟨hmem', hothers'⟩ := List.forall_mem_cons.mp hothers'
          obtain ⟨a, b, ha, hb, hsame⟩ := h.normalizeComponent_agree h' hapart hmem hmem' hother.symm
          have hcollision := h.collisionOf_eq h' htopics hfirst hmem hfirst' hmem' hkey hother.symm
          rw [checkGroup, checkGroup, ha, hb]
          dsimp only [bind, Except.bind]
          rw [hsame, hreference, hcollision, ih hothers hothers' hrest]

theorem Complete.settleGroup_eq (h : Complete program start components) (h' : Complete program start components')
    (hapart : Apart program start) (hqualifies : Qualifies program start)
    (htopics : SameTopics components components' entryRefs entryRefs') (name : Str) :
    settleGroup components entryRefs name = settleGroup components' entryRefs' name := by
  have hkeys := h.group_eq h' hqualifies name
  have hmember : ∀ component ∈ group components name, component ∈ components := fun _ hmem => (mem_group.mp hmem).1
  have hmember' : ∀ component ∈ group components' name, component ∈ components' :=
    fun _ hmem => (mem_group.mp hmem).1
  unfold settleGroup
  cases hgroup : group components name with
  | nil =>
      rw [hgroup] at hkeys
      rw [List.map_eq_nil_iff.mp hkeys.symm]
  | cons first others =>
      rw [hgroup] at hkeys hmember
      cases hgroup' : group components' name with
      | nil =>
          rw [hgroup'] at hkeys
          cases hkeys
      | cons first' others' =>
          rw [hgroup'] at hkeys hmember'
          obtain ⟨hfirst, hothers⟩ := List.cons.inj hkeys
          obtain ⟨hmem, hrest⟩ := List.forall_mem_cons.mp hmember
          obtain ⟨hmem', hrest'⟩ := List.forall_mem_cons.mp hmember'
          obtain ⟨a, b, ha, hb, hsame⟩ := h.normalizeComponent_agree h' hapart hmem hmem' hfirst.symm
          have hchecked := h.checkGroup_eq h' hapart htopics hmem hmem' hfirst.symm hsame hrest hrest' hothers
          dsimp only
          rw [ha, hb]
          dsimp only [bind, Except.bind]
          rw [hchecked, h.published_eq h' hapart hmem hmem' hfirst.symm]

-- A catalogue is finished alike in any order.
theorem Complete.finish_eq (h : Complete program start components) (h' : Complete program start components')
    (hapart : Apart program start) (hqualifies : Qualifies program start)
    (htopics : SameTopics components components' entryRefs entryRefs') :
    finish components entryRefs = finish components' entryRefs' := by
  unfold finish
  rw [h.groupNames_eq h', funext (h.settleGroup_eq h' hapart hqualifies htopics)]

theorem Complete.checkGroup_collides (h : Complete program start components) (hapart : Apart program start)
    {first : Component} {reference : Json} {others : List Component} {error : DeriveError}
    (hothers : ∀ other ∈ others, other ∈ components)
    (herror : checkGroup components entryRefs first reference others = .error error) :
    ∃ other, error = collisionOf components entryRefs first other := by
  induction others with
  | nil => cases herror
  | cons other rest ih =>
      obtain ⟨hmem, hothers⟩ := List.forall_mem_cons.mp hothers
      obtain ⟨a, -, ha, -⟩ := h.normalizeComponent_agree h hapart hmem hmem rfl
      rw [checkGroup, ha] at herror
      dsimp only [bind, Except.bind] at herror
      split at herror
      · cases herror
        exact ⟨other, rfl⟩
      · exact ih hothers herror

-- A catalogue is finished or its names collide.
theorem Complete.finish_cases (h : Complete program start components) (hapart : Apart program start) :
    (∃ schemas, finish components entryRefs = .ok schemas) ∨
      ∃ first other, finish components entryRefs = .error (collisionOf components entryRefs first other) := by
  cases hfinish : finish components entryRefs with
  | ok schemas => exact .inl ⟨schemas, rfl⟩
  | error error =>
      right
      rcases Except.bind_eq_error.mp hfinish with herror | ⟨settled, -, herror⟩
      · obtain ⟨name, -, herror⟩ := Except.exists_of_mapM_eq_error herror
        have hmember : ∀ component ∈ group components name, component ∈ components :=
          fun _ hmem => (mem_group.mp hmem).1
        unfold settleGroup at herror
        split at herror
        · cases herror
        · rename_i first others hgroup
          rw [hgroup] at hmember
          obtain ⟨hmem, hrest⟩ := List.forall_mem_cons.mp hmember
          obtain ⟨a, -, ha, -⟩ := h.normalizeComponent_agree h hapart hmem hmem rfl
          rcases Except.bind_eq_error.mp herror with hfailed | ⟨reference, -, herror⟩
          · rw [ha] at hfailed
            cases hfailed
          · rcases Except.bind_eq_error.mp herror with hcheck | ⟨checked, -, herror⟩
            · obtain ⟨other, rfl⟩ := h.checkGroup_collides hapart hrest hcheck
              exact ⟨first, other, rfl⟩
            · cases herror
      · cases herror

end Finishing

end Benzene.Contract.Derivation
