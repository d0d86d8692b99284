import Benzene.Contract.Described
import Benzene.Data.JsonRoundTrip

namespace Benzene.Contract.Derivation

open Benzene.Data
open Benzene.Mesh (Member)

section Schemas

def LiteralValue.scalar? : LiteralValue → Option Scalar
  | .value scalar => some scalar
  | _ => none

theorem filterMap_literalJson (values : List LiteralValue) :
    values.filterMap literalJson = (values.filterMap LiteralValue.scalar?).map Scalar.toJson := by
  rw [List.map_filterMap]
  congr 1
  funext value
  cases value <;> rfl

theorem scalar?_of_type {value : LiteralValue} {name : Str} (h : literalType value = some name) :
    ∃ scalar, value = .value scalar := by
  cases value with
  | value scalar => exact ⟨scalar, rfl⟩
  | none | member | plainMember | bytes => cases h

def literalOf (name : Str) (scalars : List Scalar) (nullable : Bool) : Fields :=
  enumSchema name scalars ++ Json.fieldIf nullable "nullable" (.bool true)

theorem literalSchema_cases (values : List LiteralValue) : literalSchema values = [] ∨ ∃ name scalars,
    literalSchema values = literalOf name scalars (.none ∈ values) ∧
      ∀ value ∈ values, value ≠ .none → ∃ scalar ∈ scalars, writtenValue value = .value scalar ∧
        literalType (.value scalar) = some name := by
  unfold literalSchema
  split
  · exact .inl rfl
  · rename_i hplain
    dsimp only
    split
    · rename_i name hname
      have hmem : ∀ value, value ∈ distinct ((values.filter fun value => value ≠ .none).map writtenValue) →
          literalType value = some name := by
        intro value hvalue
        have htype : literalType value ∈ distinct ((distinct ((values.filter fun value => value ≠ .none).map
            writtenValue)).map literalType) := (mem_distinct).mpr (List.mem_map_of_mem hvalue)
        rw [hname] at htype
        exact List.mem_singleton.mp htype
      refine .inr ⟨name, (distinct ((values.filter fun value => value ≠ .none).map writtenValue)).filterMap
        LiteralValue.scalar?, ?_, ?_⟩
      · rw [filterMap_literalJson]
        rfl
      · intro value hvalue hnone
        have hwritten : writtenValue value ∈ distinct ((values.filter fun value => value ≠ .none).map writtenValue) :=
          mem_distinct.mpr (List.mem_map_of_mem (List.mem_filter.mpr ⟨hvalue, decide_eq_true hnone⟩))
        have htype := hmem _ hwritten
        obtain ⟨scalar, hscalar⟩ := scalar?_of_type htype
        rw [hscalar] at hwritten htype
        exact ⟨scalar, List.mem_filterMap.mpr ⟨_, hwritten, rfl⟩, hscalar, htype⟩
    · exact .inl rfl

-- The schemas that a rule gives as they stand.
inductive Leaf : Fields → Prop
  | any : Leaf []
  | array : Leaf (arraySchema [])
  | map : Leaf (mapSchema [])
  | primitive (primitive : Primitive) : Leaf (primitiveSchema primitive)
  | path : Leaf (typed "string")
  | literal (name : Str) (scalars : List Scalar) (nullable : Bool) : Leaf (literalOf name scalars nullable)

variable {program : Program} {context : Context} {pyType : PyType} {schema : Fields}

theorem classRule_leaf (h : classRule program context pyType = .schema schema) : Leaf schema := by
  unfold classRule at h
  split at h
  · cases h
    exact .any
  · split at h
    · cases h
    · cases h
      exact .any

theorem arrayRule_leaf {args : List PyType} (h : arrayRule context args = .schema schema) : Leaf schema := by
  unfold arrayRule at h
  split at h
  · cases h
  · cases h
    exact .array

theorem rootModelRule_leaf {id : ClassId} {root : Option (PyType × Bool)} {serialized : Bool}
    (h : rootModelRule context id root serialized = .schema schema) : Leaf schema := by
  unfold rootModelRule at h
  split at h
  · split at h
    · cases h
      exact .any
    · cases h
  · cases h
    exact .any

theorem rule_leaf (h : rule program context pyType = .schema schema) : Leaf schema := by
  unfold rule at h
  split at h
  · split at h
    · cases h
      exact .any
    · cases h
  · split at h
    · cases h
    · cases h
      exact .any
  · exact arrayRule_leaf h
  · exact arrayRule_leaf h
  · exact arrayRule_leaf h
  · exact arrayRule_leaf h
  · split at h
    · cases h
    · cases h
      exact .map
  · exact classRule_leaf h
  · rename_i values hvalues
    cases h
    rcases literalSchema_cases values with hempty | ⟨name, scalars, hliteral, -⟩
    · rw [hempty]
      exact .any
    · rw [hliteral]
      exact .literal _ _ _
  · cases h
    exact .primitive _
  · cases h
    exact .path
  · split at h
    · exact rootModelRule_leaf h
    · exact classRule_leaf h
  · cases h
    exact .any

-- What an enum component holds.
inductive EnumLeaf : Fields → Prop
  | any : EnumLeaf []
  | values (name : Str) (values : List Scalar) : EnumLeaf (enumSchema name values)

theorem content_leaf [UnicodeData] {key : PyType} (h : content program context key = .schema schema) :
    EnumLeaf schema := by
  unfold content at h
  split at h
  · cases h
    exact .values _ _
  · cases h
    exact .values _ _
  · cases h
  · cases h
  · cases h
    exact .any

end Schemas

section Renaming

variable (final : List (Str × Str))

theorem renameFields_eq (fields : Fields) : renameFields final fields = Entries.mapValues (rename final) fields := by
  induction fields with
  | nil => rfl
  | cons field rest ih =>
      obtain ⟨key, value⟩ := field
      rw [renameFields, ih]
      rfl

theorem renameItems_eq (items : List Json) : renameItems final items = items.map (rename final) := by
  induction items with
  | nil => rfl
  | cons item rest ih =>
      rw [renameItems, ih]
      rfl

theorem rename_strs (texts : List Str) : rename final (.arr (texts.map .str)) = .arr (texts.map .str) := by
  rw [rename, renameItems_eq, List.map_map]
  rfl

theorem rename_scalars (values : List Scalar) :
    rename final (.arr (values.map Scalar.toJson)) = .arr (values.map Scalar.toJson) := by
  rw [rename, renameItems_eq, List.map_map]
  congr 1
  apply List.map_congr_left
  intro value _
  cases value <;> rfl

-- An object with no reference of its own.
theorem rename_plain {fields : Fields} (h : ("$ref" : Str) ∉ Entries.keys fields) :
    rename final (.obj fields) = .obj (Entries.mapValues (rename final) fields) := by
  have hpending : pendingToken fields = none := by
    unfold pendingToken Json.getField
    rw [(Entries.get?_eq_none_iff _ _).mpr h]
    rfl
  rw [rename, hpending, ← renameFields_eq]

theorem rename_leaf {schema : Fields} (h : Leaf schema) : rename final (.obj schema) = .obj schema := by
  cases h with
  | any => rfl
  | array => rfl
  | map => rfl
  | primitive primitive => cases primitive <;> rfl
  | path => rfl
  | literal name scalars nullable =>
      rw [rename_plain final (by cases nullable <;> simp [literalOf, enumSchema, Json.fieldIf])]
      unfold literalOf enumSchema
      rw [Entries.mapValues, List.map_append]
      congr 2
      · show [(_, _), (_, rename final (.arr (scalars.map Scalar.toJson)))] = _
        rw [rename_scalars]
        rfl
      · cases nullable <;> rfl

theorem pendingToken_set {key : Str} (hkey : key ≠ "$ref") (value : Json) (fields : Fields) :
    pendingToken (Entries.set key value fields) = pendingToken fields := by
  unfold pendingToken Json.getField
  rw [Entries.get?_set, if_neg hkey]

theorem mem_keys_of_pending {fields : Fields} {token : Str} (h : pendingToken fields = some token) :
    ("$ref" : Str) ∈ Entries.keys fields := by
  by_contra habsent
  unfold pendingToken Json.getField at h
  rw [(Entries.get?_eq_none_iff _ _).mpr habsent] at h
  cases h

theorem rename_pending {fields : Fields} {token : Str} (h : pendingToken fields = some token) :
    rename final (.obj fields) =
      .obj (Entries.set "$ref" (.str (schemaRefPrefix ++ (Entries.get? token final).getD [])) fields) := by
  rw [rename, h]

theorem rename_members {fields : Fields} (h : pendingToken fields = none) :
    rename final (.obj fields) = .obj (Entries.mapValues (rename final) fields) := by
  rw [rename, h, ← renameFields_eq]

theorem set_nullable {fields renamed : Fields} (h : rename final (.obj fields) = .obj renamed) :
    rename final (.obj (Entries.set "nullable" (.bool true) fields)) =
      .obj (Entries.set "nullable" (.bool true) renamed) := by
  have hne : ("nullable" : Str) ≠ "$ref" := by simp
  cases hpending : pendingToken fields with
  | some token =>
      rw [rename_pending final hpending] at h
      cases h
      rw [rename_pending final (by rw [pendingToken_set hne]; exact hpending),
        Entries.set_comm hne.symm _ _ (mem_keys_of_pending hpending)]
  | none =>
      rw [rename_members final hpending] at h
      cases h
      rw [rename_members final (by rw [pendingToken_set hne]; exact hpending), ← Entries.set_mapValues]
      rfl

theorem keys_rename {fields renamed : Fields} (h : rename final (.obj fields) = .obj renamed) :
    Entries.keys renamed = Entries.keys fields := by
  cases hpending : pendingToken fields with
  | some token =>
      rw [rename_pending final hpending] at h
      cases h
      rw [Entries.keys_set, if_pos (mem_keys_of_pending hpending)]
  | none =>
      rw [rename_members final hpending] at h
      cases h
      exact Entries.keys_mapValues _ _

-- A schema is renamed inside what is wrapped around it.
theorem rename_apply {fields renamed : Fields} (h : rename final (.obj fields) = .obj renamed) (wrap : Wrap) :
    rename final (.obj (wrap.apply fields)) = .obj (wrap.apply renamed) := by
  have hkeys := keys_rename final h
  cases wrap with
  | same => exact h
  | array =>
      show rename final (.obj (arraySchema fields)) = .obj (arraySchema renamed)
      rw [rename_plain final (by simp [arraySchema])]
      show Json.obj [_, (_, rename final (.obj fields))] = _
      rw [h]
      rfl
  | map =>
      show rename final (.obj (mapSchema fields)) = .obj (mapSchema renamed)
      rw [rename_plain final (by simp [mapSchema])]
      show Json.obj [_, (_, rename final (.obj fields))] = _
      rw [h]
      rfl
  | nullable refType =>
      have hempty : fields = [] ↔ renamed = [] := by
        have hlength := congrArg List.length hkeys
        unfold Entries.keys at hlength
        rw [List.length_map, List.length_map] at hlength
        rw [← List.length_eq_zero_iff, ← List.length_eq_zero_iff, hlength]
      have href : (Entries.get? ("$ref" : Str) fields).isSome = (Entries.get? ("$ref" : Str) renamed).isSome := by
        rw [Bool.eq_iff_iff, ← not_iff_not, Option.not_isSome_iff_eq_none, Option.not_isSome_iff_eq_none,
          Entries.get?_eq_none_iff, Entries.get?_eq_none_iff, hkeys]
      show rename final (.obj (nullable fields refType)) = .obj (nullable renamed refType)
      unfold nullable
      by_cases hnil : fields = []
      · rw [if_pos hnil, if_pos (hempty.mp hnil)]
        exact h
      · rw [if_neg hnil, if_neg (fun hrenamed => hnil (hempty.mpr hrenamed))]
        cases refType with
        | none => exact set_nullable final h
        | some name =>
            dsimp only
            rw [← href]
            split
            · rw [rename_plain final (by simp)]
              show Json.obj [_, _, (_, rename final (.arr [.obj fields]))] = _
              rw [rename, renameItems_eq, List.map_singleton, h]
              rfl
            · exact set_nullable final h

theorem rename_reference {token name : Str} (hmark : token.startsWith tokenMark)
    (h : Entries.get? token final = some name) : rename final (.obj (reference token)) = .obj (reference name) := by
  have hpending : pendingToken (reference token) = some token := by
    show (if (schemaRefPrefix ++ token).startsWith (schemaRefPrefix ++ tokenMark) then
      some ((schemaRefPrefix ++ token).drop schemaRefPrefix.length) else none) = _
    obtain ⟨rest, rfl⟩ := List.isPrefixOf_iff_prefix.mp hmark
    rw [if_pos, List.drop_left]
    exact List.isPrefixOf_iff_prefix.mpr ⟨rest, by rw [List.append_assoc]⟩
  rw [rename_pending final hpending, h]
  rfl

-- Every type is called by its token, until its token is replaced by its name.
def Renames (token called : PyType → Str) (keys : List PyType) : Prop :=
  ∀ key ∈ keys, (token key).startsWith tokenMark ∧ Entries.get? (token key) final = some (called key)

variable {final} {program : Program} {token called : PyType → Str}

theorem rename_outline {context : Context} {pyType : PyType} {outline : Outline}
    (h : Describes program context pyType outline) (hnames : Renames final token called outline.ending.keys) :
    rename final (.obj (outline.write token)) = .obj (outline.write called) := by
  induction h with
  | schema hrule => exact rename_leaf final (rule_leaf hrule)
  | component hrule =>
      obtain ⟨hmark, hget⟩ := hnames _ (List.mem_singleton_self _)
      exact rename_reference final hmark hget
  | within hrule _ ih => exact rename_apply final (ih hnames) _

theorem rename_property {context : Context} {property : Property} {described : Property × Outline}
    (h : DescribesProperty program context property described)
    (hnames : Renames final token called described.2.ending.keys) :
    rename final (.obj (described.2.write token)) = .obj (described.2.write called) := by
  obtain ⟨-, h⟩ := h
  cases htype : property.pyType with
  | none =>
      rw [htype] at h
      rw [h]
      rfl
  | some pyType =>
      rw [htype] at h
      exact rename_outline h hnames

-- A property may be called `$ref`, but it is no reference.
theorem rename_properties {properties : Fields} (h : ∀ property ∈ properties, ∃ fields, property.2 = .obj fields) :
    rename final (.obj (Entries.update [] properties)) =
      .obj (Entries.update [] (Entries.mapValues (rename final) properties)) := by
  have hpending : pendingToken (Entries.update [] properties) = none := by
    unfold pendingToken Json.getField
    cases hget : Entries.get? ("$ref" : Str) (Entries.update [] properties) with
    | none => rfl
    | some value =>
        rcases Entries.mem_update (Entries.mem_of_get? hget) with hmem | hmem
        · cases hmem
        · obtain ⟨fields, hfields⟩ := h _ hmem
          change value = .obj fields at hfields
          rw [hfields]
          rfl
  rw [rename_members final hpending, ← Entries.update_mapValues]
  rfl

theorem rename_record {properties : Fields} (h : ∀ property ∈ properties, ∃ fields, property.2 = .obj fields)
    (required : List Str) : rename final (.obj (recordSchema properties required)) =
      .obj (recordSchema (Entries.mapValues (rename final) properties) required) := by
  unfold recordSchema
  rw [rename_plain final (by by_cases hrequired : required = [] <;> simp [Json.fieldIf, hrequired]),
    Entries.mapValues, List.map_append]
  congr 2
  · show [(_, _), (_, rename final (.obj (Entries.update [] properties)))] = _
    rw [rename_properties h]
    rfl
  · by_cases hrequired : required = []
    · simp [Json.fieldIf, hrequired]
    · simp only [Json.fieldIf, hrequired, ne_eq, not_false_eq_true, decide_true, if_true]
      show [(_, rename final (.arr (required.map .str)))] = _
      rw [rename_strs]

theorem rename_enum {schema : Fields} (h : EnumLeaf schema) : rename final (.obj schema) = .obj schema := by
  cases h with
  | any => rfl
  | values name values =>
      rw [rename_plain final (by simp [enumSchema])]
      show Json.obj [_, (_, rename final (.arr (values.map Scalar.toJson)))] = _
      rw [rename_scalars]
      rfl

theorem rename_blueprint [UnicodeData] {context : Context} {key : PyType} {blueprint : Blueprint}
    (h : DescribesContent program (content program context key) blueprint)
    (hnames : Renames final token called blueprint.keys) :
    rename final (.obj (blueprint.derived token).1) = .obj (blueprint.derived called).1 := by
  generalize hcontent : content program context key = derivedContent at h
  cases h with
  | schema schema => exact rename_enum (content_leaf hcontent)
  | @record inner properties described h =>
      simp only [Blueprint.derived, derivedProperties, List.map_map, List.filter_map]
      have hobjects : ∀ property ∈ described.map ((fun property : Property × Derived =>
          (property.1.name, Json.obj property.2.1)) ∘ fun property => (property.1, property.2.derived token)),
          ∃ fields, property.2 = .obj fields := by
        intro property hproperty
        obtain ⟨source, -, rfl⟩ := List.mem_map.mp hproperty
        exact ⟨_, rfl⟩
      rw [rename_record hobjects]
      congr 2
      unfold Entries.mapValues
      rw [List.map_map]
      apply List.map_congr_left
      intro property hproperty
      obtain ⟨written, -, hdescribes⟩ := exists_of_mem_right h hproperty
      have hrenamed := rename_property hdescribes fun key hkey =>
        hnames key (List.mem_flatMap.mpr ⟨property, hproperty, hkey⟩)
      show (_, rename final (.obj (property.2.write token))) = (_, Json.obj (property.2.write called))
      rw [hrenamed]
      rfl

end Renaming

section Entries

-- What an entry's types are derived to.
structure Outlined where
  declared : Declared
  payload : Outline
  response : Option Outline

def Outlined.keys (outlined : Outlined) : List PyType :=
  outlined.payload.ending.keys ++ (outlined.response.map fun response => response.ending.keys).getD []

def Outlined.derived (called : PyType → Str) (outlined : Outlined) : DerivedEntry where
  declared := outlined.declared
  payload := outlined.payload.derived called
  response := outlined.response.map fun response => response.derived called

def Outlined.entry (called : PyType → Str) (mappings : Str × Str → List (Str × Str)) (outlined : Outlined) : Entry where
  topic := outlined.declared.topic
  version := outlined.declared.version
  payload := .obj (outlined.payload.write called)
  response := outlined.response.map fun response => .obj (response.write called)
  httpMappings := mappings (outlined.declared.topic, outlined.declared.version)

def Declared.types (declared : Declared) : List PyType := declared.payload :: declared.response.toList

structure DescribesEntry (program : Program) (declared : Declared) (outlined : Outlined) : Prop where
  same : outlined.declared = declared
  payload : Describes program topLevel declared.payload outlined.payload
  response : Option.Rel (Describes program topLevel) declared.response outlined.response

variable [UnicodeData] {program : Program} {start : Context → PyType → Prop} {fuel : Nat}
  {before after : List Component}

theorem describing_entry {declared : Declared} {derived : DerivedEntry}
    (hstart : ∀ pyType ∈ declared.types, start topLevel pyType) (hbefore : Ordered before)
    (h : deriveEntry program fuel declared before = .ok (derived, after)) :
    ∃ outlined, DescribesEntry program declared outlined ∧ derived = outlined.derived (tokenOf after) ∧
      (∀ key ∈ outlined.keys, key ∈ keysOf after) ∧ Adds program start before after outlined.keys := by
  unfold deriveEntry at h
  obtain ⟨⟨first, middle⟩, hfirst, h⟩ := Except.bind_eq_ok.mp h
  obtain ⟨payload, hpayload, rfl, hkeys, hadds⟩ :=
    describing_derive fuel (.start (hstart _ List.mem_cons_self)) hbefore hfirst
  dsimp only at h
  cases hresponse : declared.response with
  | none =>
      rw [hresponse] at h
      cases h
      refine ⟨⟨declared, payload, none⟩, ⟨rfl, hpayload, ?_⟩, rfl, ?_, ?_⟩
      · rw [hresponse]
        exact .none
      · intro key hkey
        exact hkeys key (by simpa [Outlined.keys] using hkey)
      · exact hadds.weaken fun key hkey => List.mem_append_left _ hkey
  | some pyType =>
      rw [hresponse] at h
      obtain ⟨⟨second, last⟩, hsecond, h⟩ := Except.bind_eq_ok.mp h
      cases h
      have hmem : pyType ∈ declared.types := by
        unfold Declared.types
        rw [hresponse]
        exact List.mem_cons_of_mem _ (List.mem_singleton_self _)
      obtain ⟨response, hdescribes, rfl, hkeys', hadds'⟩ :=
        describing_derive fuel (.start (hstart _ hmem)) hadds.ordered hsecond
      refine ⟨⟨declared, payload, some response⟩, ⟨rfl, hpayload, ?_⟩, ?_, ?_, hadds.trans hadds'⟩
      · rw [hresponse]
        exact .some hdescribes
      · rw [hadds'.derived_eq hkeys]
        rfl
      · intro key hkey
        rcases List.mem_append.mp hkey with hkey | hkey
        · exact (hadds'.keys (hkeys key hkey)).1
        · exact hkeys' key hkey

theorem Adds.entry_eq {middle : List Component} {refs : List PyType} (h : Adds program start middle after refs)
    {outlined : Outlined} (hkeys : ∀ key ∈ outlined.keys, key ∈ keysOf middle) :
    outlined.derived (tokenOf middle) = outlined.derived (tokenOf after) := by
  have hpayload := h.derived_eq fun key hkey => hkeys key (List.mem_append_left _ hkey)
  unfold Outlined.derived
  rw [hpayload]
  cases hresponse : outlined.response with
  | none => rfl
  | some response =>
      have hrest : response.derived (tokenOf middle) = response.derived (tokenOf after) := by
        apply h.derived_eq
        intro key hkey
        apply hkeys key (List.mem_append_right _ _)
        rw [hresponse]
        exact hkey
      rw [Option.map_some, Option.map_some, hrest]

theorem Adds.entries_eq {middle : List Component} {refs : List PyType} (h : Adds program start middle after refs)
    {entries : List Outlined} (hkeys : ∀ key ∈ entries.flatMap Outlined.keys, key ∈ keysOf middle) :
    entries.map (Outlined.derived (tokenOf middle)) = entries.map (Outlined.derived (tokenOf after)) := by
  apply List.map_congr_left
  intro entry hentry
  exact h.entry_eq fun key hkey => hkeys key (List.mem_flatMap.mpr ⟨entry, hentry, hkey⟩)

theorem describing_entries {entries : List Declared} {derived : List DerivedEntry}
    (hstart : ∀ entry ∈ entries, ∀ pyType ∈ entry.types, start topLevel pyType) (hbefore : Ordered before)
    (h : deriveEntries program fuel entries before = .ok (derived, after)) :
    ∃ outlined, List.Forall₂ (DescribesEntry program) entries outlined ∧
      derived = outlined.map (Outlined.derived (tokenOf after)) ∧
      (∀ key ∈ outlined.flatMap Outlined.keys, key ∈ keysOf after) ∧
      Adds program start before after (outlined.flatMap Outlined.keys) := by
  induction entries generalizing before derived with
  | nil =>
      cases h
      exact ⟨[], .nil, rfl, fun _ hkey => (nomatch hkey), Adds.refl hbefore _⟩
  | cons entry rest ih =>
      unfold deriveEntries at h
      obtain ⟨⟨first, middle⟩, hfirst, h⟩ := Except.bind_eq_ok.mp h
      obtain ⟨⟨others, last⟩, hothers, h⟩ := Except.bind_eq_ok.mp h
      change Except.ok (first :: others, last) = _ at h
      cases h
      obtain ⟨outlined, hdescribes, rfl, hkeys, hadds⟩ :=
        describing_entry (hstart entry List.mem_cons_self) hbefore hfirst
      obtain ⟨more, hmore, rfl, hmoreKeys, haddsRest⟩ :=
        ih (fun other hother => hstart other (List.mem_cons_of_mem _ hother)) hadds.ordered hothers
      refine ⟨outlined :: more, .cons hdescribes hmore, ?_, ?_, hadds.trans haddsRest⟩
      · rw [List.map_cons, haddsRest.entry_eq hkeys]
      · intro key hkey
        rcases List.mem_append.mp hkey with hkey | hkey
        · exact (haddsRest.keys (hkeys key hkey)).1
        · exact hmoreKeys key hkey

end Entries

section Names

theorem tokenAt_injective : Function.Injective tokenAt := by
  intro a b h
  have hdigits : Str.ofNat a = Str.ofNat b := List.append_cancel_left h
  rw [← Json.readNat_ofNat a, hdigits, Json.readNat_ofNat]

variable {components : List Component}

theorem Ordered.nodup_tokens (h : Ordered components) :
    (components.map fun component => component.token).Nodup := by
  rw [h.tokens]
  exact List.nodup_range.map tokenAt_injective

theorem keys_finalNames : Entries.keys (finalNames components) = components.map fun component => component.token := by
  unfold Entries.keys finalNames
  rw [List.map_map]
  rfl

theorem get?_finalNames (h : Ordered components) {component : Component} (hmem : component ∈ components) :
    Entries.get? component.token (finalNames components) = some component.name := by
  apply Entries.get?_of_mem
  · rw [keys_finalNames]
    exact h.nodup_tokens
  · exact List.mem_map_of_mem hmem

theorem Ordered.marked (h : Ordered components) {component : Component} (hmem : component ∈ components) :
    component.token.startsWith tokenMark := by
  have htoken := List.mem_map_of_mem (f := fun component : Component => component.token) hmem
  rw [h.tokens] at htoken
  obtain ⟨index, -, htoken⟩ := List.mem_map.mp htoken
  rw [← htoken]
  exact List.isPrefixOf_iff_prefix.mpr (List.prefix_append _ _)

variable [UnicodeData] {program : Program} {start : Context → PyType → Prop} {refs : List PyType}

theorem Adds.settled (h : Adds program start [] components refs) {component : Component}
    (hmem : component ∈ components) : Settled program start components component ∧
      ∃ key ∈ refs, Relation.ReflTransGen (Refers components) key component.key := by
  obtain ⟨more, hcomponents, hmore⟩ := h.more
  rw [List.nil_append] at hcomponents
  subst hcomponents
  exact hmore component hmem

theorem Ordered.renames (h : Ordered components)
    (hnames : ∀ component ∈ components, component.name = componentName program component.key) {keys : List PyType}
    (hkeys : ∀ key ∈ keys, key ∈ keysOf components) :
    Renames (finalNames components) (tokenOf components) (componentName program) keys := by
  intro key hkey
  obtain ⟨component, hmem, rfl⟩ := mem_keysOf.mp (hkeys key hkey)
  rw [tokenOf_of_mem h.nodup hmem, get?_finalNames h hmem, hnames component hmem]
  exact ⟨h.marked hmem, rfl⟩

theorem Adds.renames (h : Adds program start [] components refs) {keys : List PyType}
    (hkeys : ∀ key ∈ keys, key ∈ keysOf components) :
    Renames (finalNames components) (tokenOf components) (componentName program) keys :=
  h.ordered.renames (fun _ hmem => (h.settled hmem).1.1) hkeys

-- What a component comes to, once references are by name.
theorem Adds.written (h : Adds program start [] components refs) {component : Component}
    (hmem : component ∈ components) : ∃ context pyType blueprint, Met program start context pyType ∧
      rule program context pyType = .component component.key ∧
      DescribesContent program (content program context component.key) blueprint ∧ component.refs = blueprint.keys ∧
      (∀ key ∈ blueprint.keys, key ∈ keysOf components) ∧
      rename (finalNames components) (.obj component.schema) =
        .obj (blueprint.derived (componentName program)).1 := by
  obtain ⟨⟨-, -, context, pyType, blueprint, hmet, hrule, hdescribes, hderived, hkeys⟩, -⟩ := h.settled hmem
  refine ⟨context, pyType, blueprint, hmet, hrule, hdescribes, ?_, hkeys, ?_⟩
  · rw [← @Blueprint.derived_keys (tokenOf components), ← hderived]
  · have hschema : component.schema = (blueprint.derived (tokenOf components)).1 := by rw [← hderived]
    rw [hschema]
    exact rename_blueprint hdescribes (h.renames hkeys)

omit [UnicodeData] in
theorem mem_groupNames {name : Str} :
    name ∈ groupNames components ↔ ∃ component ∈ components, component.name = name := by
  unfold groupNames
  rw [(Str.sorted_perm _).mem_iff, mem_distinct, List.mem_map]

omit [UnicodeData] in
theorem nodup_groupNames : (groupNames components).Nodup := (Str.sorted_perm _).nodup_iff.mpr (nodup_distinct _)

omit [UnicodeData] in
theorem mem_group {name : Str} {component : Component} :
    component ∈ group components name ↔ component ∈ components ∧ component.name = name := by
  unfold group
  rw [(sortOn_perm _ _).mem_iff, List.mem_filter, decide_eq_true_eq]

theorem finish_ok {entryRefs : EntryRefs} {schemas : Fields} (h : finish components entryRefs = .ok schemas) :
    List.Forall₂ (fun name schema => schema.1 = name ∧ ∃ first, (group components name).head? = some first ∧
      schema.2 = rename (finalNames components) (.obj first.schema)) (groupNames components) schemas := by
  obtain ⟨settled, hsettled, h⟩ := Except.bind_eq_ok.mp h
  cases h
  have hall : ∀ name ∈ groupNames components, group components name ≠ [] := by
    intro name hname hempty
    obtain ⟨component, hmem, hcomponent⟩ := mem_groupNames.mp hname
    have hgroup := mem_group.mpr ⟨hmem, hcomponent⟩
    rw [hempty] at hgroup
    cases hgroup
  have hforall := Except.mapM_eq_ok.mp hsettled
  clear hsettled h
  generalize groupNames components = names at hall hforall
  induction hforall with
  | nil => exact .nil
  | @cons name entry rest entries hfirst _ ih =>
      have hrest := ih fun other hother => hall other (List.mem_cons_of_mem _ hother)
      unfold settleGroup at hfirst
      cases hgroup : group components name with
      | nil => exact absurd hgroup (hall name List.mem_cons_self)
      | cons first others =>
          rw [hgroup] at hfirst
          obtain ⟨reference, -, hfirst⟩ := Except.bind_eq_ok.mp hfirst
          obtain ⟨checked, -, hfirst⟩ := Except.bind_eq_ok.mp hfirst
          cases hfirst
          exact .cons ⟨rfl, first, by rw [hgroup]; rfl, rfl⟩ hrest

end Names

section Documents

def Registrations.starts (registrations : Registrations) (context : Context) (pyType : PyType) : Prop :=
  context = topLevel ∧ ∃ member, ∃ entry ∈ registrations.declared member, pyType ∈ entry.types

variable [UnicodeData]

-- The components of a document and what its entries' types are derived to.
structure Catalogued (program : Program) (registrations : Registrations) (components : List Component)
    (outlined : Member → List Outlined) : Prop where
  entries : ∀ member, List.Forall₂ (DescribesEntry program) (registrations.declared member) (outlined member)
  keys : ∀ member, ∀ key ∈ (outlined member).flatMap Outlined.keys, key ∈ keysOf components
  adds : Adds program registrations.starts [] components
    ((outlined .requests ++ outlined .events ++ outlined .sends).flatMap Outlined.keys)

variable {program : Program} {fuel : Nat} {mappings : Str × Str → List (Str × Str)} {registrations : Registrations}
  {document : Document}

def Outlined.refs (outlined : Outlined) : Str × List PyType := (outlined.declared.topic, outlined.keys)

def perMember {α : Type} (requests events sends : α) : Member → α
  | .requests => requests
  | .events => events
  | .sends => sends

theorem Catalogued.settled_entries {components : List Component} {outlined : Member → List Outlined}
    (h : Catalogued program registrations components outlined) (member : Member)
    (listed : Str × Str → List (Str × Str)) :
    ((outlined member).map (Outlined.derived (tokenOf components))).map
        (DerivedEntry.settled (finalNames components) listed) =
      (outlined member).map (Outlined.entry (componentName program) listed) := by
  rw [List.map_map]
  apply List.map_congr_left
  intro entry hentry
  obtain ⟨declared, -, hdescribes⟩ := exists_of_mem_right (h.entries member) hentry
  have hrenames := h.adds.renames fun key hkey => h.keys member key (List.mem_flatMap.mpr ⟨entry, hentry, hkey⟩)
  have hpayload := rename_outline hdescribes.payload fun key hkey => hrenames key (List.mem_append_left _ hkey)
  have hresponse := hdescribes.response
  show DerivedEntry.settled _ _ (entry.derived _) = entry.entry _ _
  unfold DerivedEntry.settled Outlined.entry Outlined.derived
  dsimp only
  congr 1
  generalize declared.response = response at hresponse
  unfold Outlined.keys at hrenames
  cases hentryResponse : entry.response with
  | none => rfl
  | some outline =>
      rw [hentryResponse] at hresponse hrenames
      cases hresponse with
      | some hdescribes =>
          have hrenamed := rename_outline hdescribes fun key hkey => hrenames key (List.mem_append_right _ hkey)
          exact congrArg some hrenamed

-- What a component of a document is.
structure Catalogued.Publishes (program : Program) (registrations : Registrations) (components : List Component)
    (component : Component) (blueprint : Blueprint) (schema : Json) : Prop where
  met : ∃ context pyType, Met program registrations.starts context pyType ∧
    rule program context pyType = .component component.key ∧
    DescribesContent program (content program context component.key) blueprint
  refs : component.refs = blueprint.keys
  keys : ∀ key ∈ blueprint.keys, key ∈ keysOf components
  schema : schema = .obj (blueprint.derived (componentName program)).1

theorem Catalogued.published {components : List Component} {outlined : Member → List Outlined}
    (h : Catalogued program registrations components outlined) {entryRefs : EntryRefs} {schemas : Fields}
    (hfinish : finish components entryRefs = .ok schemas) {schema : Str × Json} (hmem : schema ∈ schemas) :
    ∃ component blueprint, (group components schema.1).head? = some component ∧
      Catalogued.Publishes program registrations components component blueprint schema.2 := by
  obtain ⟨name, -, hname, component, hfirst, hschema⟩ := exists_of_mem_right (finish_ok hfinish) hmem
  have hcomponent := (mem_group.mp (List.mem_of_mem_head? hfirst)).1
  obtain ⟨context, pyType, blueprint, hmet, hrule, hdescribes, hrefs, hkeys, hwritten⟩ := h.adds.written hcomponent
  rw [← hname] at hfirst
  exact ⟨component, blueprint, hfirst, ⟨context, pyType, hmet, hrule, hdescribes⟩, hrefs, hkeys, hschema.trans hwritten⟩

def Outlined.published (called : PyType → Str) (mappings : Str × Str → List (Str × Str))
    (outlined : Member → List Outlined) (schemas : Fields) : Document where
  requests := sortEntries ((outlined .requests).map (Outlined.entry called mappings))
  events := sortEntries ((outlined .events).map (Outlined.entry called fun _ => []))
  sends := sortEntries ((outlined .sends).map (Outlined.entry called fun _ => []))
  schemas := schemas

omit [UnicodeData] in
theorem refs_derived (called : PyType → Str) (outlined : List Outlined) :
    (outlined.map (Outlined.derived called)).map DerivedEntry.refs = outlined.map Outlined.refs := by
  rw [List.map_map]
  apply List.map_congr_left
  intro entry _
  obtain ⟨declared, payload, response⟩ := entry
  cases response <;> rfl

-- Entries that derive one after another make a document, with every component called by its name.
theorem deriveDocument_eq {first second components : List Component} {requests events sends : List DerivedEntry}
    (hrequests : deriveEntries program fuel (registrations.declared .requests) [] = .ok (requests, first))
    (hevents : deriveEntries program fuel (registrations.declared .events) first = .ok (events, second))
    (hsends : deriveEntries program fuel (registrations.declared .sends) second = .ok (sends, components)) :
    ∃ outlined, Catalogued program registrations components outlined ∧
      deriveDocument program fuel mappings registrations =
        (finish components ((outlined .requests ++ outlined .events ++ outlined .sends).map Outlined.refs)).map
          (Outlined.published (componentName program) mappings outlined) := by
  have hstart : ∀ member, ∀ entry ∈ registrations.declared member, ∀ pyType ∈ entry.types,
      registrations.starts topLevel pyType := fun member entry hentry pyType hpyType =>
    ⟨rfl, member, entry, hentry, hpyType⟩
  obtain ⟨requested, hrequested, rfl, hrequestKeys, hfirst⟩ :=
    describing_entries (hstart .requests) ordered_nil hrequests
  obtain ⟨evented, hevented, rfl, heventKeys, hsecond⟩ := describing_entries (hstart .events) hfirst.ordered hevents
  obtain ⟨sent, hsent, rfl, hsendKeys, hthird⟩ := describing_entries (hstart .sends) hsecond.ordered hsends
  have hcatalogued : Catalogued program registrations components (perMember requested evented sent) := by
    refine ⟨?_, ?_, ?_⟩
    · intro member
      cases member with
      | requests => exact hrequested
      | events => exact hevented
      | sends => exact hsent
    · intro member key hkey
      cases member with
      | requests => exact (hthird.keys (hsecond.keys (hrequestKeys key hkey)).1).1
      | events => exact (hthird.keys (heventKeys key hkey)).1
      | sends => exact hsendKeys key hkey
    · have hall := (hfirst.trans hsecond).trans hthird
      rwa [← List.flatMap_append, ← List.flatMap_append] at hall
  have hrequestsEq : requested.map (Outlined.derived (tokenOf first)) =
      requested.map (Outlined.derived (tokenOf components)) := by
    rw [hsecond.entries_eq hrequestKeys]
    exact hthird.entries_eq fun key hkey => (hsecond.keys (hrequestKeys key hkey)).1
  have heventsEq := hthird.entries_eq heventKeys
  refine ⟨_, hcatalogued, ?_⟩
  have hsettledRequests := hcatalogued.settled_entries .requests mappings
  have hsettledEvents := hcatalogued.settled_entries .events fun _ => []
  have hsettledSends := hcatalogued.settled_entries .sends fun _ => []
  unfold deriveDocument
  rw [hrequests]
  dsimp only [bind, Except.bind]
  rw [hevents]
  dsimp only
  rw [hsends]
  dsimp only [perMember] at hsettledRequests hsettledEvents hsettledSends ⊢
  rw [hrequestsEq, heventsEq, List.map_append, List.map_append, refs_derived, refs_derived, refs_derived,
    ← List.map_append, ← List.map_append, hsettledRequests, hsettledEvents, hsettledSends]
  show _ = (finish components ((requested ++ evented ++ sent).map Outlined.refs)).map _
  cases finish components ((requested ++ evented ++ sent).map Outlined.refs) with
  | error error => rfl
  | ok schemas => rfl

theorem deriveDocument_ok (h : deriveDocument program fuel mappings registrations = .ok document) :
    ∃ components outlined, Catalogued program registrations components outlined ∧
      finish components ((outlined .requests ++ outlined .events ++ outlined .sends).map Outlined.refs) =
        .ok document.schemas ∧
      document.requests = sortEntries ((outlined .requests).map (Outlined.entry (componentName program) mappings)) ∧
      document.events = sortEntries ((outlined .events).map (Outlined.entry (componentName program) fun _ => [])) ∧
      document.sends = sortEntries ((outlined .sends).map (Outlined.entry (componentName program) fun _ => [])) := by
  have hderived := h
  unfold deriveDocument at hderived
  obtain ⟨⟨requests, first⟩, hrequests, hderived⟩ := Except.bind_eq_ok.mp hderived
  obtain ⟨⟨events, second⟩, hevents, hderived⟩ := Except.bind_eq_ok.mp hderived
  obtain ⟨⟨sends, components⟩, hsends, -⟩ := Except.bind_eq_ok.mp hderived
  obtain ⟨outlined, hcatalogued, heq⟩ := deriveDocument_eq hrequests hevents hsends
  rw [heq] at h
  cases hfinish : finish components ((outlined .requests ++ outlined .events ++ outlined .sends).map Outlined.refs) with
  | error error =>
      rw [hfinish] at h
      cases h
  | ok schemas =>
      rw [hfinish] at h
      cases h
      exact ⟨components, outlined, hcatalogued, hfinish, rfl, rfl, rfl⟩

end Documents

end Benzene.Contract.Derivation
