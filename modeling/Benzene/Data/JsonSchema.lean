import Benzene.Data.Canonical
import Benzene.Data.Dict

namespace Benzene.Data.JsonSchema

section Acceptance

-- The JSON type that a value has by the name of `type`.
inductive OfType : Str → Json → Prop
  | null : OfType "null" .null
  | boolean (b : Bool) : OfType "boolean" (.bool b)
  | integer (n : Int) : OfType "integer" (.int n)
  | whole (n : Int) : OfType "number" (.int n)
  | number (x : PyFloat) : OfType "number" (.float x)
  | string (text : Str) : OfType "string" (.str text)
  | array (items : List Json) : OfType "array" (.arr items)
  | object (members : Fields) : OfType "object" (.obj members)

-- `type` names one type, or a list of them.
inductive Names : Json → Str → Prop
  | one (name : Str) : Names (.str name) name
  | among {names : List Json} {name : Str} (h : .str name ∈ names) : Names (.arr names) name

-- The values a schema accepts, where a reference is resolved in a catalogue. Beside a reference
-- nothing counts. `nullable` admits `null`, whatever else the schema says. The values of `enum` are
-- the same in any order of their members.
inductive Accepts (resolve : Str → Option Fields) : Fields → Json → Prop
  | reference {schema target : Fields} {ref : Str} {value : Json}
      (href : Entries.get? ("$ref" : Str) schema = some (.str ref)) (htarget : resolve ref = some target)
      (h : Accepts resolve target value) : Accepts resolve schema value
  | null {schema : Fields} (href : Entries.get? ("$ref" : Str) schema = none)
      (hnullable : Entries.get? ("nullable" : Str) schema = some (.bool true)) : Accepts resolve schema .null
  | keywords {schema : Fields} {value : Json} (href : Entries.get? ("$ref" : Str) schema = none)
      (htype : ∀ types, Entries.get? ("type" : Str) schema = some types → ∃ name, Names types name ∧ OfType name value)
      (henum : ∀ values, Entries.get? ("enum" : Str) schema = some (.arr values) →
        value.canonical ∈ values.map Json.canonical)
      (hitems : ∀ item items, Entries.get? ("items" : Str) schema = some (.obj item) → value = .arr items →
        ∀ element ∈ items, Accepts resolve item element)
      (hadditional : ∀ additional members, Entries.get? ("additionalProperties" : Str) schema = some (.obj additional) →
        value = .obj members → ∀ member ∈ members, Accepts resolve additional member.2)
      (hproperties : ∀ properties members name property,
        Entries.get? ("properties" : Str) schema = some (.obj properties) → value = .obj members →
        Entries.get? name properties = some (.obj property) →
        ∀ member ∈ members, member.1 = name → Accepts resolve property member.2)
      (hrequired : ∀ required members name, Entries.get? ("required" : Str) schema = some (.arr required) →
        value = .obj members → .str name ∈ required → name ∈ Entries.keys members)
      (hallOf : ∀ branches branch, Entries.get? ("allOf" : Str) schema = some (.arr branches) → .obj branch ∈ branches →
        Accepts resolve branch value) : Accepts resolve schema value

variable {resolve : Str → Option Fields} {schema : Fields} {value : Json}

theorem accepts_open (value : Json) : Accepts resolve [] value :=
  .keywords rfl (fun _ h => nomatch h) (fun _ h => nomatch h) (fun _ _ h => nomatch h) (fun _ _ h => nomatch h)
    (fun _ _ _ _ h => nomatch h) (fun _ _ _ h => nomatch h) (fun _ _ h => nomatch h)

-- What a schema that names one type and refers to nothing says of a value.
theorem Accepts.ofType {name : Str} (h : Accepts resolve schema value)
    (href : Entries.get? ("$ref" : Str) schema = none) (hnullable : Entries.get? ("nullable" : Str) schema = none)
    (htype : Entries.get? ("type" : Str) schema = some (.str name)) : OfType name value := by
  cases h with
  | reference hsome => rw [href] at hsome; cases hsome
  | null _ hsome => rw [hnullable] at hsome; cases hsome
  | keywords _ hof =>
      obtain ⟨other, hnames, hof⟩ := hof _ htype
      cases hnames
      exact hof

theorem Accepts.through {target : Fields} {ref : Str} (h : Accepts resolve schema value)
    (href : Entries.get? ("$ref" : Str) schema = some (.str ref)) (htarget : resolve ref = some target) :
    Accepts resolve target value := by
  cases h with
  | reference href' htarget' h =>
      rw [href] at href'
      cases href'
      rw [htarget] at htarget'
      cases htarget'
      exact h
  | null hnone => rw [href] at hnone; cases hnone
  | keywords hnone => rw [href] at hnone; cases hnone

-- A schema that refers to a component admits what the component admits.
theorem accepts_ref_iff {ref : Str} (href : Entries.get? ("$ref" : Str) schema = some (.str ref)) :
    Accepts resolve schema value ↔ ∃ target, resolve ref = some target ∧ Accepts resolve target value := by
  constructor
  · intro h
    cases h with
    | reference href' htarget h =>
        rw [href] at href'
        cases href'
        exact ⟨_, htarget, h⟩
    | null hnone => rw [href] at hnone; cases hnone
    | keywords hnone => rw [href] at hnone; cases hnone
  · rintro ⟨target, htarget, h⟩
    exact .reference href htarget h

theorem sizeOf_element {elements : List Json} {element : Json} (h : element ∈ elements) :
    sizeOf element < sizeOf (Json.arr elements) := by
  have := List.sizeOf_lt_of_mem h
  rw [Json.arr.sizeOf_spec]
  omega

theorem sizeOf_member {members : Fields} {member : Str × Json} (h : member ∈ members) :
    sizeOf member.2 < sizeOf (Json.obj members) := by
  have hmember := List.sizeOf_lt_of_mem h
  have hsnd : sizeOf member.2 < sizeOf member := by
    obtain ⟨key, value⟩ := member
    rw [Prod.mk.sizeOf_spec]
    show sizeOf value < _
    omega
  rw [Json.obj.sizeOf_spec]
  omega

-- What `b` asks of a value, `a` asks as well, with schemas inside them that stand in a relation.
structure Asks (R : Fields → Fields → Prop) (a b : Fields) : Prop where
  ref : Entries.get? ("$ref" : Str) a = none → Entries.get? ("$ref" : Str) b = none
  nullable : Entries.get? ("nullable" : Str) a = some (.bool true) →
    Entries.get? ("nullable" : Str) b = some (.bool true)
  type : ∀ types, Entries.get? ("type" : Str) b = some types →
    ∃ others, Entries.get? ("type" : Str) a = some others ∧ others.canonical = types.canonical
  values : ∀ values, Entries.get? ("enum" : Str) b = some (.arr values) →
    ∃ others, Entries.get? ("enum" : Str) a = some (.arr others) ∧ others.map Json.canonical = values.map Json.canonical
  items : ∀ item, Entries.get? ("items" : Str) b = some (.obj item) →
    ∃ other, Entries.get? ("items" : Str) a = some (.obj other) ∧ R other item
  additional : ∀ additional, Entries.get? ("additionalProperties" : Str) b = some (.obj additional) →
    ∃ other, Entries.get? ("additionalProperties" : Str) a = some (.obj other) ∧ R other additional
  properties : ∀ properties name property, Entries.get? ("properties" : Str) b = some (.obj properties) →
    Entries.get? name properties = some (.obj property) → ∃ others other,
      Entries.get? ("properties" : Str) a = some (.obj others) ∧ Entries.get? name others = some (.obj other) ∧
        R other property
  required : ∀ required name, Entries.get? ("required" : Str) b = some (.arr required) → .str name ∈ required →
    ∃ others, Entries.get? ("required" : Str) a = some (.arr others) ∧ .str name ∈ others
  allOf : ∀ branches branch, Entries.get? ("allOf" : Str) b = some (.arr branches) → .obj branch ∈ branches →
    ∃ others other, Entries.get? ("allOf" : Str) a = some (.arr others) ∧ .obj other ∈ others ∧ R other branch

theorem canonical_eq_str {value : Json} {text : Str} (h : value.canonical = .str text) : value = .str text := by
  cases value with
  | arr => rw [Json.canonical_arr] at h; cases h
  | obj => rw [Json.canonical_obj] at h; cases h
  | null | bool | int | float | str => exact h

theorem str_mem_of_canonical {texts others : List Json} (h : texts.map Json.canonical = others.map Json.canonical)
    {text : Str} (hmem : .str text ∈ texts) : .str text ∈ others := by
  have hcanonical : Json.canonical (.str text) ∈ others.map Json.canonical := by
    rw [← h]
    exact List.mem_map_of_mem hmem
  obtain ⟨other, hother, heq⟩ := List.mem_map.mp hcanonical
  rw [canonical_eq_str heq] at hother
  exact hother

theorem Names.of_canonical {types others : Json} {name : Str} (h : Names types name)
    (hsame : types.canonical = others.canonical) : Names others name := by
  cases h with
  | one =>
      rw [canonical_eq_str hsame.symm]
      exact .one name
  | among hmem =>
      rw [Json.canonical_arr] at hsame
      cases others with
      | arr names =>
          rw [Json.canonical_arr] at hsame
          exact .among (str_mem_of_canonical (Json.arr.inj hsame) hmem)
      | obj => rw [Json.canonical_obj] at hsame; cases hsame
      | null | bool | int | float | str => cases hsame

-- A schema that asks less of a value accepts it.
theorem Asks.accepts {other : Str → Option Fields} {a b : Fields}
    (h : Asks (fun x y => ∀ value, Accepts resolve x value → Accepts other y value) a b)
    (hnone : Entries.get? ("$ref" : Str) a = none) (haccepts : Accepts resolve a value) : Accepts other b value := by
  have href := h.ref hnone
  cases haccepts with
  | reference hsome => rw [hnone] at hsome; cases hsome
  | null _ hnullable => exact .null href (h.nullable hnullable)
  | keywords _ htype henum hitems hadditional hproperties hrequired hallOf =>
      refine .keywords href ?_ ?_ ?_ ?_ ?_ ?_ ?_
      · intro types htypes
        obtain ⟨others, hothers, hsame⟩ := h.type types htypes
        obtain ⟨name, hname, hof⟩ := htype others hothers
        exact ⟨name, hname.of_canonical hsame, hof⟩
      · intro values hvalues
        obtain ⟨others, hothers, hsame⟩ := h.values values hvalues
        rw [← hsame]
        exact henum others hothers
      · intro item items hitem hvalue element helement
        obtain ⟨_, hother, himplies⟩ := h.items item hitem
        exact himplies element (hitems _ items hother hvalue element helement)
      · intro additional members hget hvalue member hmember
        obtain ⟨_, hother, himplies⟩ := h.additional additional hget
        exact himplies member.2 (hadditional _ members hother hvalue member hmember)
      · intro properties members name property hprops hvalue hget member hmember hname
        obtain ⟨others, _, hothers, hother, himplies⟩ := h.properties properties name property hprops hget
        exact himplies member.2 (hproperties others members name _ hothers hvalue hother member hmember hname)
      · intro required members name hrequires hvalue hmem
        obtain ⟨others, hothers, hlisted⟩ := h.required required name hrequires hmem
        exact hrequired others members name hothers hvalue hlisted
      · intro branches branch hbranches hmem
        obtain ⟨others, _, hothers, hlisted, himplies⟩ := h.allOf branches branch hbranches hmem
        exact himplies value (hallOf others _ hothers hlisted)

theorem canonical_eq_bool {value : Json} {b : Bool} (h : value.canonical = .bool b) : value = .bool b := by
  cases value with
  | arr => rw [Json.canonical_arr] at h; cases h
  | obj => rw [Json.canonical_obj] at h; cases h
  | null | bool | int | float | str => exact h

theorem canonical_eq_arr {value : Json} {items : List Json} (h : value.canonical = (Json.arr items).canonical) :
    ∃ others, value = .arr others ∧ others.map Json.canonical = items.map Json.canonical := by
  rw [Json.canonical_arr] at h
  cases value with
  | arr others =>
      rw [Json.canonical_arr] at h
      exact ⟨others, rfl, Json.arr.inj h⟩
  | obj => rw [Json.canonical_obj] at h; cases h
  | null | bool | int | float | str => cases h

theorem canonical_eq_obj {value : Json} {members : Fields} (h : value.canonical = (Json.obj members).canonical) :
    ∃ others, value = .obj others := by
  rw [Json.canonical_obj] at h
  cases value with
  | obj others => exact ⟨others, rfl⟩
  | arr => rw [Json.canonical_arr] at h; cases h
  | null | bool | int | float | str => cases h

theorem sizeOf_get? {fields : Fields} {key : Str} {found : Json} (h : Entries.get? key fields = some found) :
    sizeOf found < sizeOf (Json.obj fields) := sizeOf_member (Entries.mem_of_get? h)

-- Schemas that differ in the order of their members accept the same values.
theorem accepts_of_canonical {a b : Fields} {value : Json}
    (hsame : (Json.obj a).canonical = (Json.obj b).canonical) (haccepts : Accepts resolve a value) :
    Accepts resolve b value := by
  have hget : ∀ key found, Entries.get? key b = some found →
      ∃ other, Entries.get? key a = some other ∧ other.canonical = found.canonical := by
    intro key found hfound
    have hkey := Json.get?_of_canonical hsame key
    rw [hfound] at hkey
    exact Option.map_eq_some_iff.mp hkey
  have hobj : ∀ key item, Entries.get? key b = some (.obj item) →
      ∃ other, Entries.get? key a = some (.obj other) ∧ (Json.obj other).canonical = (Json.obj item).canonical := by
    intro key item hitem
    obtain ⟨found, hfound, hequal⟩ := hget key _ hitem
    obtain ⟨other, rfl⟩ := canonical_eq_obj hequal
    exact ⟨other, hfound, hequal⟩
  have harr : ∀ key items, Entries.get? key b = some (.arr items) →
      ∃ others, Entries.get? key a = some (.arr others) ∧ others.map Json.canonical = items.map Json.canonical := by
    intro key items hitems
    obtain ⟨found, hfound, hequal⟩ := hget key _ hitems
    obtain ⟨others, rfl, hitems⟩ := canonical_eq_arr hequal
    exact ⟨others, hfound, hitems⟩
  cases href : Entries.get? ("$ref" : Str) a with
  | some found =>
      have hkey := Json.get?_of_canonical hsame "$ref"
      rw [href] at hkey
      obtain ⟨other, hother, hequal⟩ := Option.map_eq_some_iff.mp hkey.symm
      cases haccepts with
      | reference hsome htarget h =>
          rw [href] at hsome
          cases hsome
          rw [canonical_eq_str hequal] at hother
          exact .reference hother htarget h
      | null hnone => rw [href] at hnone; cases hnone
      | keywords hnone => rw [href] at hnone; cases hnone
  | none =>
      refine Asks.accepts ⟨?_, ?_, hget "type", ?_, ?_, ?_, ?_, ?_, ?_⟩ href haccepts
      · intro _
        by_contra hsome
        obtain ⟨found, hfound⟩ := Option.ne_none_iff_exists'.mp hsome
        obtain ⟨other, hother, -⟩ := hget _ _ hfound
        rw [href] at hother
        cases hother
      · intro hnullable
        have hkey := Json.get?_of_canonical hsame "nullable"
        rw [hnullable] at hkey
        obtain ⟨other, hother, hequal⟩ := Option.map_eq_some_iff.mp hkey.symm
        rw [hother, canonical_eq_bool hequal]
      · exact harr "enum"
      · intro item hitem
        obtain ⟨other, hother, hequal⟩ := hobj _ _ hitem
        have hsmaller := sizeOf_get? hitem
        exact ⟨other, hother, fun value => accepts_of_canonical hequal⟩
      · intro additional hadditional
        obtain ⟨other, hother, hequal⟩ := hobj _ _ hadditional
        have hsmaller := sizeOf_get? hadditional
        exact ⟨other, hother, fun value => accepts_of_canonical hequal⟩
      · intro properties name property hproperties hproperty
        obtain ⟨others, hothers, hequal⟩ := hobj _ _ hproperties
        have hkey := Json.get?_of_canonical hequal name
        rw [hproperty] at hkey
        obtain ⟨found, hfound, hsub⟩ := Option.map_eq_some_iff.mp hkey
        obtain ⟨other, rfl⟩ := canonical_eq_obj hsub
        have hsmaller := (sizeOf_get? hproperty).trans (sizeOf_get? hproperties)
        exact ⟨others, other, hothers, hfound, fun value => accepts_of_canonical hsub⟩
      · intro required name hrequired hname
        obtain ⟨others, hothers, hequal⟩ := harr _ _ hrequired
        exact ⟨others, hothers, str_mem_of_canonical hequal.symm hname⟩
      · intro branches branch hbranches hbranch
        obtain ⟨others, hothers, hequal⟩ := harr _ _ hbranches
        have hmem : (Json.obj branch).canonical ∈ others.map Json.canonical := by
          rw [hequal]
          exact List.mem_map_of_mem hbranch
        obtain ⟨found, hfound, hsub⟩ := List.mem_map.mp hmem
        obtain ⟨other, rfl⟩ := canonical_eq_obj hsub
        have hsmaller := (sizeOf_element hbranch).trans (sizeOf_get? hbranches)
        exact ⟨others, other, hothers, hfound, fun value => accepts_of_canonical hsub⟩
termination_by sizeOf (Json.obj b)
decreasing_by all_goals simp only [Json.obj.sizeOf_spec] at hsmaller ⊢; omega

end Acceptance

section Validation

-- JSON Schema 2020-12, without references: `null` is a type like the others, and
-- `additionalProperties` speaks of the members that `properties` does not name.
inductive Validates : Fields → Json → Prop
  | keywords {schema : Fields} {value : Json}
      (htype : ∀ types, Entries.get? ("type" : Str) schema = some types → ∃ name, Names types name ∧ OfType name value)
      (henum : ∀ values, Entries.get? ("enum" : Str) schema = some (.arr values) →
        value.canonical ∈ values.map Json.canonical)
      (hitems : ∀ item items, Entries.get? ("items" : Str) schema = some (.obj item) → value = .arr items →
        ∀ element ∈ items, Validates item element)
      (hproperties : ∀ properties members name property,
        Entries.get? ("properties" : Str) schema = some (.obj properties) → value = .obj members →
        Entries.get? name properties = some (.obj property) →
        ∀ member ∈ members, member.1 = name → Validates property member.2)
      (hadditional : ∀ additional members, Entries.get? ("additionalProperties" : Str) schema = some (.obj additional) →
        value = .obj members → ∀ member ∈ members,
        (∀ properties, Entries.get? ("properties" : Str) schema = some (.obj properties) →
          member.1 ∉ Entries.keys properties) → Validates additional member.2)
      (hrequired : ∀ required members name, Entries.get? ("required" : Str) schema = some (.arr required) →
        value = .obj members → .str name ∈ required → name ∈ Entries.keys members) : Validates schema value

theorem validates_open (value : Json) : Validates [] value :=
  .keywords (fun _ h => nomatch h) (fun _ h => nomatch h) (fun _ _ h => nomatch h) (fun _ _ _ _ h => nomatch h)
    (fun _ _ h => nomatch h) (fun _ _ _ h => nomatch h)

end Validation

end Benzene.Data.JsonSchema
