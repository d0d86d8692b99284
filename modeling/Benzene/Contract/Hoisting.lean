import Benzene.Contract.Alike
import Benzene.Contract.Inlining
import Benzene.Contract.Narrowing

namespace Benzene.Contract

open Benzene.Data

section Hoisting

-- A reference to a component.
def referenceTo (name : Str) : Json := .obj [Json.field "$ref" (.str (schemaRefPrefix ++ name))]

variable (schema : Json) (fresh : Str)

mutual

-- A value, and that value with a reference to `fresh` for `schema` at some positions.
inductive Hoisted : Position → Json → Json → Prop
  | same (pos : Position) (value : Json) : Hoisted pos value value
  | here : Hoisted .schema schema (referenceTo fresh)
  | keywords {fields fields' : Fields} (h : HoistedKeywords fields fields') :
      Hoisted .schema (.obj fields) (.obj fields')
  | properties {members members' : Fields} (h : HoistedMembers members members') :
      Hoisted .properties (.obj members) (.obj members')
  | branches {items items' : List Json} (h : HoistedBranches items items') :
      Hoisted .branches (.arr items) (.arr items')

inductive HoistedKeywords : Fields → Fields → Prop
  | nil : HoistedKeywords [] []
  | cons {key : Str} {value value' : Json} {rest rest' : Fields} (h : Hoisted (position key) value value')
      (hrest : HoistedKeywords rest rest') : HoistedKeywords ((key, value) :: rest) ((key, value') :: rest')

inductive HoistedMembers : Fields → Fields → Prop
  | nil : HoistedMembers [] []
  | cons {key : Str} {value value' : Json} {rest rest' : Fields} (h : Hoisted .schema value value')
      (hrest : HoistedMembers rest rest') : HoistedMembers ((key, value) :: rest) ((key, value') :: rest')

inductive HoistedBranches : List Json → List Json → Prop
  | nil : HoistedBranches [] []
  | cons {value value' : Json} {rest rest' : List Json} (h : Hoisted .schema value value')
      (hrest : HoistedBranches rest rest') : HoistedBranches (value :: rest) (value' :: rest')

end

variable {schema fresh}

theorem Hoisted.of_plain {value value' : Json} (h : Hoisted schema fresh .plain value value') : value' = value := by
  cases h
  rfl

theorem HoistedKeywords.get? {fields fields' : Fields} (h : HoistedKeywords schema fresh fields fields') (key : Str) :
    Option.Rel (Hoisted schema fresh (position key)) (Entries.get? key fields) (Entries.get? key fields') := by
  induction fields generalizing fields' with
  | nil =>
      cases h
      exact .none
  | cons keyword rest ih =>
      cases h with
      | @cons name value value' _ rest' h hrest =>
          rw [Entries.get?_cons, Entries.get?_cons]
          by_cases hkey : name = key
          · subst hkey
            rw [if_pos rfl, if_pos rfl]
            exact .some h
          · rw [if_neg hkey, if_neg hkey]
            exact ih hrest

theorem HoistedKeywords.get?_plain {fields fields' : Fields} (h : HoistedKeywords schema fresh fields fields')
    {key : Str} (hp : position key = .plain) : Entries.get? key fields' = Entries.get? key fields := by
  have hrel := h.get? key
  rw [hp] at hrel
  generalize Entries.get? key fields = left at hrel
  generalize Entries.get? key fields' = right at hrel
  cases hrel with
  | none => rfl
  | some h => rw [h.of_plain]

theorem HoistedKeywords.refName_eq {fields fields' : Fields} (h : HoistedKeywords schema fresh fields fields') :
    refName fields' = refName fields := by
  unfold refName Json.getField
  rw [h.get?_plain (by decide)]

theorem refName_referenceTo (name : Str) :
    refName [Json.field "$ref" (.str (schemaRefPrefix ++ name))] = some name := by
  show Str.stripPrefix? schemaRefPrefix (schemaRefPrefix ++ name) = some name
  exact Str.stripPrefix?_eq_some.mpr rfl

end Hoisting

section Reading

variable [UnicodeData]

theorem read_referenceTo (name : Str) : read .schema (referenceTo name) = .ref name := by
  rw [referenceTo, read, refName_referenceTo]

theorem named_read (fields : Fields) : (read .schema (.obj fields)).named = refName fields := by
  rw [read]
  cases hr : refName fields with
  | some name => rfl
  | none => rfl

-- A keyword that holds schemas is read.
theorem readKeywords_of_mem {schema : Fields} {key : Str} {value : Json} (h : (key, value) ∈ schema)
    (ha : annotates key = false) (hp : position key ≠ .plain) (hne : (key, value) ≠ emptyProperties) :
    (key, read (position key) value) ∈ readKeywords schema := by
  induction schema with
  | nil => cases h
  | cons keyword rest ih =>
      obtain ⟨other, value'⟩ := keyword
      rcases List.mem_cons.mp h with heq | hm
      · cases heq
        rw [readKeywords_schema ha hne hp]
        exact List.mem_cons_self
      · have htail := ih hm
        by_cases hskip : annotates other = true ∨ (other, value') = emptyProperties
        · rw [readKeywords_skip hskip]
          exact htail
        · rw [not_or, Bool.not_eq_true] at hskip
          by_cases hplain : position other = .plain
          · rw [readKeywords_plain hskip.1 hplain]
            exact List.mem_append_right _ htail
          · rw [readKeywords_schema hskip.1 hskip.2 hplain]
            exact List.mem_cons_of_mem _ htail

-- What `allOf` wraps is referred to.
theorem wrappedName_mem_refs {schema : Fields} {name : Str} (h : wrappedName schema = some name) :
    name ∈ Shape.refsMembers (readKeywords schema) := by
  unfold wrappedName Json.getField at h
  cases hget : Entries.get? ("allOf" : Str) schema with
  | none =>
      rw [hget] at h
      cases h
  | some value =>
      rw [hget] at h
      match value, h with
      | .arr [.obj member], h =>
          have hpos : position "allOf" = .branches := by decide
          have hkeyword :=
            readKeywords_of_mem (Entries.mem_of_get? hget) (by decide) (by decide) (by simp [emptyProperties])
          rw [Shape.mem_refsMembers]
          refine ⟨_, hkeyword, ?_⟩
          rw [hpos]
          simp only [Option.getD_some] at h
          simp [read, readBranches, h, Shape.refs, Shape.refsItems]

theorem wraps_mem_refs {schema : Fields} {name : Str} (h : wraps schema (readKeywords schema) = some name) :
    name ∈ Shape.refsMembers (readKeywords schema) :=
  wrappedName_mem_refs (Option.filter_eq_some_iff.mp h).1

theorem read_tight {schema : Json} (h : schema.Distinct) (pos : Position) : (read pos schema).Tight := by
  induction schema using Json.induct generalizing pos with
  | null => cases pos <;> trivial
  | bool b => cases pos <;> trivial
  | int n => cases pos <;> trivial
  | float x => cases pos <;> trivial
  | str text => cases pos <;> trivial
  | arr items ih =>
      cases pos with
      | branches =>
          show Shape.TightItems _
          rw [readBranches_eq, Shape.tightItems_iff]
          intro shape hshape
          obtain ⟨item, hm, rfl⟩ := List.mem_map.mp hshape
          exact ih item hm (Json.distinct_arr.mp h item hm) .schema
      | schema | properties | plain => trivial
  | obj fields ih =>
      obtain ⟨hnodup, hfields⟩ := Json.distinct_obj.mp h
      cases pos with
      | plain => trivial
      | branches => trivial
      | properties =>
          show Shape.TightMembers _
          rw [readMembers_eq, Shape.tightMembers_iff]
          intro member hmember
          obtain ⟨field, hm, rfl⟩ := List.mem_map.mp hmember
          exact ih field hm (hfields field hm) .schema
      | schema =>
          rw [read]
          cases hr : refName fields with
          | some name => trivial
          | none =>
              refine ⟨?_, fun wrapped hw => ⟨wraps_mem_refs hw, ?_⟩⟩
              · rw [Shape.tightMembers_iff]
                intro member hmember
                rcases mem_readKeywords hmember with ⟨-, value, hvalue, hshape⟩ | ⟨-, hplain⟩
                · rw [hshape]
                  exact ih _ hvalue (hfields _ hvalue) _
                · rcases hplain with ⟨json, hjson⟩ | ⟨-, error, herror⟩
                  · rw [hjson]
                    trivial
                  · rw [herror]
                    trivial
              · rw [List.eq_nil_iff_forall_not_mem]
                intro name hname
                obtain ⟨member, hm, hname⟩ := Shape.mem_wrappedMembers.mp hname
                rcases mem_wrapper hnodup hw member hm with ⟨json, hvalue⟩ | hbranches
                · rw [hvalue] at hname
                  cases hname
                · rw [hbranches] at hname
                  simp [Shape.wrapped, Shape.wrappedItems] at hname

end Reading

section Inlining

variable {schema : Json} {fresh : Str}

theorem filter_const_bind (c : Bool) (option : Option Str) (f : Str → Option Str) :
    (option.bind f).filter (fun _ => c) = (option.filter fun _ => c).bind f := by
  cases option with
  | none => rfl
  | some name =>
      cases c with
      | true =>
          show (f name).filter (fun _ => true) = f name
          cases f name <;> rfl
      | false => simp

theorem Hoisted.emptyProperties_iff {key : Str} {value value' : Json}
    (h : Hoisted schema fresh (position key) value value') :
    (key, value') = emptyProperties ↔ (key, value) = emptyProperties := by
  by_cases hkey : key = "properties"
  · subst hkey
    have hpos : position "properties" = .properties := by decide
    rw [hpos] at h
    cases h with
    | same => exact Iff.rfl
    | properties h =>
        cases h with
        | nil => exact Iff.rfl
        | cons h hrest => simp [emptyProperties]
  · simp [emptyProperties, hkey]

variable [UnicodeData]

theorem inline_readPlain {target : Shape} (key : Str) (value : Json) :
    Shape.inlineMembers fresh target (readPlain key value) = readPlain key value := by
  apply Shape.inlineMembers_fresh
  intro member hm
  rcases plain_readPlain hm with ⟨json, hjson⟩ | ⟨-, error, herror⟩
  · rw [hjson]
    rfl
  · rw [herror]
    rfl

theorem readKeywords_hoisted {fields fields' : Fields} (h : HoistedKeywords schema fresh fields fields')
    (hfresh : fresh ∉ Shape.refsMembers (readKeywords fields)) (ih : ∀ keyword ∈ fields, ∀ pos value',
      Hoisted schema fresh pos keyword.2 value' → fresh ∉ (read pos keyword.2).refs →
        read pos keyword.2 = Shape.inline fresh (read .schema schema) (read pos value')) :
    readKeywords fields = Shape.inlineMembers fresh (read .schema schema) (readKeywords fields') := by
  induction fields generalizing fields' with
  | nil =>
      cases h
      rfl
  | cons keyword rest ihrest =>
      obtain ⟨key, value⟩ := keyword
      cases h with
      | @cons _ _ value' _ rest' h hrest =>
          obtain ⟨hvalue, htail⟩ := List.forall_mem_cons.mp ih
          by_cases hskip : annotates key = true ∨ (key, value) = emptyProperties
          · rw [readKeywords_skip (hskip.imp_right h.emptyProperties_iff.mpr)]
            rw [readKeywords_skip hskip] at hfresh ⊢
            exact ihrest hrest hfresh htail
          · have hskip' : ¬(annotates key = true ∨ (key, value') = emptyProperties) := by
              rwa [h.emptyProperties_iff]
            rw [not_or, Bool.not_eq_true] at hskip hskip'
            by_cases hp : position key = .plain
            · rw [hp] at h
              have heq := h.of_plain
              subst heq
              rw [readKeywords_plain hskip.1 hp] at hfresh ⊢
              rw [readKeywords_plain hskip.1 hp, Shape.inlineMembers_append, inline_readPlain]
              congr 1
              apply ihrest hrest _ htail
              intro hm
              obtain ⟨member, hmember, hname⟩ := Shape.mem_refsMembers.mp hm
              exact hfresh (Shape.mem_refsMembers.mpr ⟨member, List.mem_append_right _ hmember, hname⟩)
            · rw [readKeywords_schema hskip.1 hskip.2 hp] at hfresh ⊢
              rw [Shape.refsMembers, List.mem_append, not_or] at hfresh
              rw [readKeywords_schema hskip'.1 hskip'.2 hp, Shape.inlineMembers, ← ihrest hrest hfresh.2 htail,
                ← hvalue (position key) value' h hfresh.1]

theorem readMembers_hoisted {members members' : Fields} (h : HoistedMembers schema fresh members members')
    (hfresh : fresh ∉ Shape.refsMembers (readMembers members)) (ih : ∀ member ∈ members, ∀ pos value',
      Hoisted schema fresh pos member.2 value' → fresh ∉ (read pos member.2).refs →
        read pos member.2 = Shape.inline fresh (read .schema schema) (read pos value')) :
    readMembers members = Shape.inlineMembers fresh (read .schema schema) (readMembers members') := by
  induction members generalizing members' with
  | nil =>
      cases h
      rfl
  | cons member rest ihrest =>
      cases h with
      | cons h hrest =>
          obtain ⟨hvalue, htail⟩ := List.forall_mem_cons.mp ih
          rw [readMembers, Shape.refsMembers, List.mem_append, not_or] at hfresh
          rw [readMembers, readMembers, Shape.inlineMembers, ← ihrest hrest hfresh.2 htail,
            ← hvalue .schema _ h hfresh.1]

theorem readBranches_hoisted {items items' : List Json} (h : HoistedBranches schema fresh items items')
    (hfresh : fresh ∉ Shape.refsItems (readBranches items)) (ih : ∀ item ∈ items, ∀ pos value',
      Hoisted schema fresh pos item value' → fresh ∉ (read pos item).refs →
        read pos item = Shape.inline fresh (read .schema schema) (read pos value')) :
    readBranches items = Shape.inlineItems fresh (read .schema schema) (readBranches items') := by
  induction items generalizing items' with
  | nil =>
      cases h
      rfl
  | cons item rest ihrest =>
      cases h with
      | cons h hrest =>
          obtain ⟨hvalue, htail⟩ := List.forall_mem_cons.mp ih
          rw [readBranches, Shape.refsItems, List.mem_append, not_or] at hfresh
          rw [readBranches, readBranches, Shape.inlineItems, ← ihrest hrest hfresh.2 htail,
            ← hvalue .schema _ h hfresh.1]

-- What `allOf` wraps stays, or is the reference for the schema.
theorem wrappedOf_hoisted {value value' : Json} (h : Hoisted schema fresh .branches value value') :
    wrappedOf value' = wrappedOf value ∨
      wrappedOf value' = some fresh ∧ wrappedOf value = (read .schema schema).named := by
  cases h with
  | same => exact .inl rfl
  | branches h =>
      cases h with
      | nil => exact .inl rfl
      | cons h hrest =>
          cases hrest with
          | cons => exact .inl (by simp [wrappedOf])
          | nil =>
              cases h with
              | same => exact .inl rfl
              | keywords h => exact .inl h.refName_eq
              | here =>
                  refine .inr ⟨refName_referenceTo fresh, ?_⟩
                  cases schema with
                  | obj fields => exact (named_read fields).symm
                  | null | bool _ | int _ | float _ | str _ | arr _ => rfl

theorem wrappedName_hoisted {fields fields' : Fields} (h : HoistedKeywords schema fresh fields fields') :
    wrappedName fields' = wrappedName fields ∨
      wrappedName fields' = some fresh ∧ wrappedName fields = (read .schema schema).named := by
  have hpos : position "allOf" = .branches := by decide
  have hrel := h.get? "allOf"
  rw [hpos] at hrel
  rw [wrappedName_eq, wrappedName_eq]
  unfold Json.getField
  generalize Entries.get? ("allOf" : Str) fields = left at hrel
  generalize Entries.get? ("allOf" : Str) fields' = right at hrel
  cases hrel with
  | none => exact .inl rfl
  | some h => exact wrappedOf_hoisted h

theorem wraps_hoisted {fields fields' : Fields} (h : HoistedKeywords schema fresh fields fields')
    (hfresh : fresh ∉ Shape.refsMembers (readKeywords fields))
    (hread : readKeywords fields = Shape.inlineMembers fresh (read .schema schema) (readKeywords fields')) :
    wraps fields (readKeywords fields) = (wraps fields' (readKeywords fields')).bind fun name =>
      if name = fresh then (read .schema schema).named else some name := by
  have hnullable : Json.getField fields' "nullable" = Json.getField fields "nullable" := by
    unfold Json.getField
    rw [h.get?_plain (by decide)]
  have hkeys : Entries.keys (readKeywords fields) = Entries.keys (readKeywords fields') := by
    rw [hread, Shape.keys_inlineMembers]
  have hname : wrappedName fields = (wrappedName fields').bind fun name =>
      if name = fresh then (read .schema schema).named else some name := by
    rcases wrappedName_hoisted h with hsame | ⟨hhere, hnamed⟩
    · rw [hsame]
      cases hname : wrappedName fields with
      | none => rfl
      | some name =>
          have hne : name ≠ fresh := by
            rintro rfl
            exact hfresh (wrappedName_mem_refs hname)
          rw [Option.bind_some, if_neg hne]
    · rw [hhere, hnamed, Option.bind_some, if_pos rfl]
  unfold wraps
  rw [hnullable, hkeys, hname]
  exact filter_const_bind _ _ _

-- Reading keeps what is hoisted: the schema stands for the reference.
theorem read_hoisted {value value' : Json} (hdistinct : value.Distinct) {pos : Position}
    (h : Hoisted schema fresh pos value value') (hfresh : fresh ∉ (read pos value).refs) :
    read pos value = Shape.inline fresh (read .schema schema) (read pos value') := by
  induction value using Json.induct generalizing pos value' with
  | null | bool _ | int _ | float _ | str _ =>
      cases h with
      | same => exact (Shape.inline_fresh (read_tight hdistinct pos) hfresh).symm
      | here =>
          rw [read_referenceTo, Shape.inline, if_pos rfl]
  | arr items ih =>
      cases h with
      | same => exact (Shape.inline_fresh (read_tight hdistinct pos) hfresh).symm
      | here => rw [read_referenceTo, Shape.inline, if_pos rfl]
      | branches h =>
          rw [read, Shape.refs] at hfresh
          have hitems := readBranches_hoisted h hfresh fun item hm pos value' =>
            ih item hm (Json.distinct_arr.mp hdistinct item hm)
          rw [read, read, Shape.inline, ← hitems]
  | obj fields ih =>
      have hvalues : ∀ field ∈ fields, ∀ pos value', Hoisted schema fresh pos field.2 value' →
          fresh ∉ (read pos field.2).refs →
            read pos field.2 = Shape.inline fresh (read .schema schema) (read pos value') :=
        fun field hm pos value' => ih field hm ((Json.distinct_obj.mp hdistinct).2 field hm)
      cases h with
      | same => exact (Shape.inline_fresh (read_tight hdistinct pos) hfresh).symm
      | here => rw [read_referenceTo, Shape.inline, if_pos rfl]
      | properties h =>
          rw [read, Shape.refs] at hfresh
          rw [read, read, Shape.inline, ← readMembers_hoisted h hfresh hvalues]
      | keywords h =>
          rw [read] at hfresh ⊢
          rw [read, h.refName_eq]
          cases hname : refName fields with
          | some name =>
              rw [hname] at hfresh
              simp only [Shape.refs, List.mem_singleton] at hfresh
              simp only [Shape.inline, if_neg (Ne.symm hfresh)]
          | none =>
              rw [hname] at hfresh
              have hkeywords := readKeywords_hoisted h hfresh hvalues
              simp only [Shape.inline, ← hkeywords, ← wraps_hoisted h hfresh hkeywords]

end Inlining

end Benzene.Contract
