import Benzene.Codegen.Types

namespace Benzene.Codegen

open Benzene.Data
open Benzene.Contract (mapping? orEmpty dictOf)

section Schemas

def declared (schema : Fields) : Fields :=
  match orEmpty schema "properties" with
  | .obj properties => properties
  | _ => []

-- The members of `allOf` that are mappings.
def members (schema : Fields) : List Fields :=
  match Entries.get? ("allOf" : Str) schema with
  | none => []
  | some items =>
      match items.iter with
      | .ok items => items.filterMap mapping?
      | .error _ => []

def isReference (schema : Fields) : Bool := (Contract.refName schema).isSome

-- The component of the first reference is the base.
def baseOf (schema : Fields) : Option Str :=
  (((members schema).find? isReference).bind Contract.refName).filter fun base => base ≠ []

def ownSchemas (schema : Fields) : List Fields := (members schema).eraseP isReference ++ [schema]

def joinProperties (schemas : List Fields) (own : Fields) : Fields :=
  schemas.foldl (fun own schema => Entries.update own (declared schema)) own

-- The properties of a schema's own, in order.
def ownOf (schema : Fields) : Fields := joinProperties (ownSchemas schema) []

-- The properties of a schema, its own or composed.
inductive HasProperty (schemas : Fields) : Fields → Str → Prop
  | own {schema : Fields} {name : Str} (h : name ∈ Entries.keys (declared schema)) : HasProperty schemas schema name
  | member {schema member : Fields} {name : Str} (hmember : member ∈ members schema)
      (h : HasProperty schemas member name) : HasProperty schemas schema name
  | reference {schema target : Fields} {component name : Str} (href : Contract.refName schema = some component)
      (htarget : Entries.get? component schemas = some (.obj target)) (h : HasProperty schemas target name) :
      HasProperty schemas schema name

-- No union, and its `properties` are mappings.
structure Readable (schema : Fields) : Prop where
  object : isUnionSchema schema = false
  composed : ∀ items, Entries.get? ("allOf" : Str) schema = some items → ∃ values, items.iter = .ok values
  mapped : ∀ part ∈ schema :: members schema, ∃ properties, orEmpty part "properties" = .obj properties ∧
    (Entries.keys properties).Nodup

-- A component that is an object schema, and so is its base.
inductive ObjectSchema (schemas : Fields) : Str → Fields → Prop
  | root {name : Str} {schema : Fields} (hget : Entries.get? name schemas = some (.obj schema))
      (hreadable : Readable schema) (hbase : baseOf schema = none) : ObjectSchema schemas name schema
  | derived {name base : Str} {schema target : Fields} (hget : Entries.get? name schemas = some (.obj schema))
      (hreadable : Readable schema) (hbase : baseOf schema = some base) (h : ObjectSchema schemas base target) :
      ObjectSchema schemas name schema

variable {schemas schema : Fields}

theorem ObjectSchema.get?_eq {name : Str} (h : ObjectSchema schemas name schema) :
    Entries.get? name schemas = some (.obj schema) := by
  cases h with
  | root hget => exact hget
  | derived hget => exact hget

theorem nodup_joinProperties (parts : List Fields) {own : Fields} (h : (Entries.keys own).Nodup) :
    (Entries.keys (joinProperties parts own)).Nodup := by
  induction parts generalizing own with
  | nil => exact h
  | cons part rest ih => exact ih (Entries.nodup_keys_update own (declared part) h)

theorem nodup_ownOf (schema : Fields) : (Entries.keys (ownOf schema)).Nodup := nodup_joinProperties _ List.nodup_nil

theorem mem_keys_joinProperties {parts : List Fields} {own : Fields} {name : Str} :
    name ∈ Entries.keys (joinProperties parts own) ↔
      name ∈ Entries.keys own ∨ ∃ part ∈ parts, name ∈ Entries.keys (declared part) := by
  induction parts generalizing own with
  | nil => simp [joinProperties]
  | cons part rest ih =>
      show name ∈ Entries.keys (joinProperties rest (Entries.update own (declared part))) ↔ _
      rw [ih, Entries.mem_keys_update, List.exists_mem_cons_iff, or_assoc]

theorem mem_keys_ownOf {name : Str} :
    name ∈ Entries.keys (ownOf schema) ↔ ∃ part ∈ ownSchemas schema, name ∈ Entries.keys (declared part) := by
  unfold ownOf
  rw [mem_keys_joinProperties]
  exact or_iff_right List.not_mem_nil

theorem hasProperty_of_own {name : Str} (h : name ∈ Entries.keys (ownOf schema)) : HasProperty schemas schema name := by
  obtain ⟨part, hpart, hname⟩ := mem_keys_ownOf.mp h
  rcases List.mem_append.mp hpart with hpart | hpart
  · exact .member (List.mem_of_mem_eraseP hpart) (.own hname)
  · rw [List.mem_singleton] at hpart
    exact .own (hpart ▸ hname)

theorem hasProperty_of_base {base name : Str} {target : Fields} (hbase : baseOf schema = some base)
    (htarget : Entries.get? base schemas = some (.obj target)) (h : HasProperty schemas target name) :
    HasProperty schemas schema name := by
  obtain ⟨hbase, -⟩ := Option.filter_eq_some_iff.mp hbase
  obtain ⟨member, hmember, href⟩ := Option.bind_eq_some_iff.mp hbase
  exact .member (List.mem_of_find?_eq_some hmember) (.reference href htarget h)

end Schemas

section Composing

theorem foldlM_composeMember {items : List Json} {own : Fields} {base : Option Str}
    (h : ∀ part ∈ items.filterMap mapping?, ∃ properties, orEmpty part "properties" = .obj properties) :
    items.foldlM composeMember (own, base) =
      .ok (joinProperties
          (if base.isSome then items.filterMap mapping? else (items.filterMap mapping?).eraseP isReference) own,
        base.or (((items.filterMap mapping?).find? isReference).bind Contract.refName)) := by
  induction items generalizing own base with
  | nil =>
      cases base with
      | none => rfl
      | some base => rfl
  | cons item rest ih =>
      rw [List.foldlM_cons]
      cases item with
      | obj part =>
          have hmapping : (Json.obj part :: rest).filterMap mapping? = part :: rest.filterMap mapping? := rfl
          rw [hmapping] at h ⊢
          obtain ⟨properties, hproperties⟩ := h part List.mem_cons_self
          have hrest := fun other hother => h other (List.mem_cons_of_mem part hother)
          have hdict : dictOf (orEmpty part "properties") = .ok (declared part) := by
            rw [declared, hproperties]
            rfl
          cases href : Contract.refName part with
          | none =>
              have hplain : isReference part = false := by rw [isReference, href]; rfl
              have hstep : composeMember (own, base) (.obj part) = .ok (Entries.update own (declared part), base) := by
                rw [composeMember, href, hdict]
                cases base <;> rfl
              rw [hstep, List.eraseP_cons_of_neg (by simp [hplain]), List.find?_cons_of_neg (by simp [hplain])]
              refine (ih hrest).trans ?_
              cases base <;> rfl
          | some name =>
              have hrefers : isReference part = true := by rw [isReference, href]; rfl
              rw [List.eraseP_cons_of_pos hrefers, List.find?_cons_of_pos hrefers, Option.bind_some, href]
              cases base with
              | none =>
                  have hstep : composeMember (own, none) (.obj part) = .ok (own, some name) := by
                    rw [composeMember, href]
                  rw [hstep]
                  exact ih hrest
              | some base =>
                  have hstep : composeMember (own, some base) (.obj part) =
                      .ok (Entries.update own (declared part), some base) := by
                    rw [composeMember, href, hdict]
                    rfl
                  rw [hstep]
                  exact ih hrest
      | null | bool _ | int _ | float _ | str _ | arr _ => exact ih h

-- What the generator reads of an object schema.
theorem ownProperties_eq {schema : Fields} (h : Readable schema) :
    ownProperties (.obj schema) =
      .ok (ownOf schema, ((members schema).find? isReference).bind Contract.refName) := by
  obtain ⟨properties, hproperties, hnodup⟩ := h.mapped schema List.mem_cons_self
  have hdict : dictOf (orEmpty schema "properties") = .ok (declared schema) := by
    rw [declared, hproperties]
    rfl
  have hdeclared : declared schema = properties := by rw [declared, hproperties]
  unfold ownProperties
  cases hget : Entries.get? ("allOf" : Str) schema with
  | none =>
      have hmembers : members schema = [] := by rw [members, hget]
      have hown : ownOf schema = declared schema := by
        rw [ownOf, ownSchemas, hmembers, hdeclared]
        show Entries.update [] (declared schema) = properties
        rw [hdeclared, Entries.update_nil_of_nodup hnodup]
      dsimp only
      rw [hget, hmembers, hown, hdict]
      rfl
  | some items =>
      obtain ⟨values, hvalues⟩ := h.composed items hget
      have hmembers : members schema = values.filterMap mapping? := by
        rw [members, hget]
        dsimp only
        rw [hvalues]
      have hmapped : ∀ part ∈ values.filterMap mapping?, ∃ properties, orEmpty part "properties" = .obj properties := by
        intro part hpart
        obtain ⟨properties, hproperties, -⟩ := h.mapped part (List.mem_cons_of_mem _ (hmembers ▸ hpart))
        exact ⟨properties, hproperties⟩
      dsimp only
      rw [hget]
      dsimp only
      rw [hvalues, hdict]
      have hfold := @foldlM_composeMember values [] none hmapped
      show (values.foldlM composeMember ([], none) >>= fun composed => _) = _
      rw [hfold, ← hmembers, ownOf, ownSchemas, joinProperties, joinProperties, List.foldl_append]
      rfl

-- Its source is a dataclass of its own properties.
theorem buildSchemaSource_eq [IdentifierData] {schema : Fields} (h : Readable schema) (name : Str) :
    buildSchemaSource name (.obj schema) =
      .ok (.dataclass (className name) ((baseOf schema).map className) (fieldsFrom [] (ownOf schema))) := by
  unfold buildSchemaSource buildFields
  dsimp only
  rw [h.object, ownProperties_eq h]
  rfl

end Composing

end Benzene.Codegen
