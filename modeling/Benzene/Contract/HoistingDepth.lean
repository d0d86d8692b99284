import Benzene.Contract.Entries
import Benzene.Contract.Hoisting

namespace Benzene.Contract

open Benzene.Data
open Benzene.Mesh (Member)

section Paths

-- A path, as it is where `fresh` is no component.
def without (fresh : Str) (path : List Str) : List Str := path.filter fun name => name ≠ fresh

theorem mem_without {fresh name : Str} {path : List Str} :
    name ∈ without fresh path ↔ name ∈ path ∧ name ≠ fresh := by
  unfold without
  rw [List.mem_filter, decide_eq_true_eq]

theorem without_iff {fresh name : Str} {path : List Str} (h : name ≠ fresh) :
    name ∈ without fresh path ↔ name ∈ path := by
  simp [mem_without, h]

theorem without_self (fresh : Str) (path : List Str) : without fresh (fresh :: path) = without fresh path := by
  simp [without]

theorem without_cons {fresh name : Str} (h : name ≠ fresh) (path : List Str) :
    without fresh (name :: path) = name :: without fresh path := by
  simp [without, h]

variable [UnicodeData]

-- The schemas that normalizing one reads, each with the path it is read on.
inductive Meets (catalogue : Fields) : List Str → Json → List Str → Json → Prop
  | here {path : List Str} {value : Json} : Meets catalogue path value path value
  | there {path path' : List Str} {value value' : Json} {name : Str} (hname : name ∈ (read .schema value).refs)
      (hcut : name ∉ path) (h : Meets catalogue (name :: path) (component catalogue name) path' value') :
      Meets catalogue path value path' value'

end Paths

section Catalogues

variable [UnicodeData]

-- A catalogue, and that catalogue with `schema` hoisted to the component `fresh`.
structure CataloguesHoisted (schema : Json) (fresh : Str) (catalogue catalogue' : Fields) : Prop where
  rest : ∀ name, name ≠ fresh →
    Option.Rel (Hoisted schema fresh .schema) (Entries.get? name catalogue) (Entries.get? name catalogue')
  held : Entries.get? fresh catalogue' = some schema
  new : fresh ∉ Entries.keys catalogue
  unused : ∀ name, fresh ∉ (read .schema (component catalogue name)).refs
  own : fresh ∉ (read .schema schema).refs

variable {schema : Json} {fresh : Str} {catalogue catalogue' : Fields}

theorem CataloguesHoisted.component (h : CataloguesHoisted schema fresh catalogue catalogue') {name : Str}
    (hname : name ≠ fresh) :
    Hoisted schema fresh .schema (Contract.component catalogue name) (Contract.component catalogue' name) := by
  have hrel := h.rest name hname
  unfold Contract.component
  generalize Entries.get? name catalogue = left at hrel
  generalize Entries.get? name catalogue' = right at hrel
  cases hrel with
  | none => exact .same _ _
  | some h => exact h

theorem CataloguesHoisted.keys_iff (h : CataloguesHoisted schema fresh catalogue catalogue') {name : Str}
    (hname : name ≠ fresh) : name ∈ Entries.keys catalogue ↔ name ∈ Entries.keys catalogue' := by
  have hrel := h.rest name hname
  rw [← not_iff_not, ← Entries.get?_eq_none_iff, ← Entries.get?_eq_none_iff]
  generalize Entries.get? name catalogue = left at hrel
  generalize Entries.get? name catalogue' = right at hrel
  cases hrel with
  | none => exact Iff.rfl
  | some h => simp

theorem CataloguesHoisted.fresh_mem (h : CataloguesHoisted schema fresh catalogue catalogue') :
    fresh ∈ Entries.keys catalogue' := by
  by_contra hkey
  have hheld := h.held
  rw [(Entries.get?_eq_none_iff fresh catalogue').mpr hkey] at hheld
  cases hheld

theorem CataloguesHoisted.component_fresh (h : CataloguesHoisted schema fresh catalogue catalogue') :
    Contract.component catalogue' fresh = schema := by
  unfold Contract.component
  rw [h.held]
  rfl

theorem CataloguesHoisted.schema_distinct (h : CataloguesHoisted schema fresh catalogue catalogue')
    (hdistinct : ∀ entry ∈ catalogue', entry.2.Distinct) : schema.Distinct := by
  have hheld := component_distinct hdistinct fresh
  rwa [h.component_fresh] at hheld

-- Where `fresh` is met while it is being expanded nothing is left of the schema, and a
-- wrapper of `fresh` is cut where a wrapper of the schema itself is.
structure Unmoved (schema : Json) (fresh : Str) (catalogue : Fields) (path : List Str) (value : Json) : Prop where
  again : fresh ∈ (read .schema value).refs → fresh ∈ path → Blank catalogue (without fresh path) schema
  wrappers : fresh ∈ (read .schema value).wrapped →
    (fresh ∈ path ↔ ∃ name ∈ path, read .schema schema = .ref name)

theorem CataloguesHoisted.wrappers_iff (h : CataloguesHoisted schema fresh catalogue catalogue')
    {path : List Str} : (∃ name ∈ without fresh path, read .schema schema = .ref name) ↔
      ∃ name ∈ path, read .schema schema = .ref name := by
  constructor
  · rintro ⟨name, hname, hread⟩
    exact ⟨name, (mem_without.mp hname).1, hread⟩
  · rintro ⟨name, hname, hread⟩
    refine ⟨name, mem_without.mpr ⟨hname, ?_⟩, hread⟩
    rintro rfl
    exact h.own (by rw [hread]; simp [Shape.refs])

-- Hoisting keeps what a schema is normalized to.
theorem normalize_hoisted (hcatalogues : CataloguesHoisted schema fresh catalogue catalogue')
    (hdistinct : ∀ entry ∈ catalogue, entry.2.Distinct) (hschema : schema.Distinct) {path : List Str}
    {value value' : Json} (hvalue : value.Distinct) (h : Hoisted schema fresh .schema value value')
    (hfresh : fresh ∉ (read .schema value).refs)
    (hunmoved : ∀ path' visited, Meets catalogue' path value' path' visited →
      Unmoved schema fresh catalogue path' visited) :
    normalize catalogue' path value' = normalize catalogue (without fresh path) value := by
  induction path using expansion_induct catalogue' generalizing value value' with
  | step path ih =>
      have hhere := hunmoved path value' .here
      rw [normalize_eq_expansion, normalize_eq_expansion, read_hoisted hvalue h hfresh]
      symm
      apply Shape.unfold_inline (fun name hname => without_iff hname)
      refine ⟨?_, ?_, ?_⟩
      · intro name hname hne hcut
        have hbelow : ∀ path' visited, Meets catalogue' (name :: path) (component catalogue' name) path' visited →
            Unmoved schema fresh catalogue path' visited :=
          fun path' visited hv => hunmoved path' visited (.there hname hcut hv)
        by_cases hkey : name ∈ Entries.keys catalogue'
        · unfold expansion
          rw [← without_cons hne]
          exact (ih name hkey hcut (component_distinct hdistinct name) (hcatalogues.component hne)
            (hcatalogues.unused name) hbelow).symm
        · rw [expansion_dangling hkey, expansion_dangling ((hcatalogues.keys_iff hne).not.mpr hkey)]
      · intro hname
        by_cases hcut : fresh ∈ path
        · rw [Shape.unfold, if_pos hcut, ← normalize_eq_expansion]
          exact normalize_blank hdistinct hschema (hhere.again hname hcut)
        · rw [Shape.unfold, if_neg hcut, ← normalize_eq_expansion]
          have hbelow : ∀ path' visited, Meets catalogue' (fresh :: path) schema path' visited →
              Unmoved schema fresh catalogue path' visited := by
            intro path' visited hv
            apply hunmoved path' visited (.there hname hcut _)
            rwa [hcatalogues.component_fresh]
          unfold expansion
          rw [hcatalogues.component_fresh,
            ih fresh hcatalogues.fresh_mem hcut hschema (.same _ _) hcatalogues.own hbelow, without_self]
      · intro hname
        rw [hcatalogues.wrappers_iff]
        exact hhere.wrappers hname

-- What is kept tells that no schema on the way was moved.
theorem unmoved_of_agree (hcatalogues : CataloguesHoisted schema fresh catalogue catalogue')
    (hdistinct : ∀ entry ∈ catalogue, entry.2.Distinct) (hdistinct' : ∀ entry ∈ catalogue', entry.2.Distinct)
    {path path' : List Str} {value value' visited : Json} (hvalue : value.Distinct) (hvalue' : value'.Distinct)
    (h : Hoisted schema fresh .schema value value') (hfresh : fresh ∉ (read .schema value).refs)
    (hagree : Agree (normalize catalogue (without fresh path) value) (normalize catalogue' path value'))
    (hmeets : Meets catalogue' path value' path' visited) : Unmoved schema fresh catalogue path' visited := by
  have hschema := hcatalogues.schema_distinct hdistinct'
  induction hmeets generalizing value with
  | @here path value' =>
      rw [normalize_eq_expansion, normalize_eq_expansion, read_hoisted hvalue h hfresh] at hagree
      have hfollows := Shape.follows_of_agree (fun name hname => without_iff hname)
        (read_sound hvalue' .schema) (read_tight hvalue' .schema) hagree
      refine ⟨?_, ?_⟩
      · intro hname hcut
        obtain ⟨v, w, hv, hw, hsame⟩ := hfollows.held hname
        rw [Shape.unfold, if_pos hcut] at hw
        cases hw
        rw [canonical_eq_empty hsame.symm, ← normalize_eq_expansion] at hv
        exact blank_of_normalize hv
      · intro hname
        rw [← hcatalogues.wrappers_iff]
        exact hfollows.wrappers hname
  | @there path path' value' visited name hname hcut _ ih =>
      rw [normalize_eq_expansion, normalize_eq_expansion, read_hoisted hvalue h hfresh] at hagree
      have hfollows := Shape.follows_of_agree (fun name hname => without_iff hname)
        (read_sound hvalue' .schema) (read_tight hvalue' .schema) hagree
      by_cases hne : name = fresh
      · subst hne
        have hbelow := hfollows.held hname
        rw [← normalize_eq_expansion, Shape.unfold, if_neg hcut] at hbelow
        unfold expansion at hbelow
        rw [hcatalogues.component_fresh] at hbelow ih
        apply ih hschema hschema (.same _ _) hcatalogues.own
        rwa [without_self]
      · have hbelow := hfollows.names name hname hne hcut
        unfold expansion at hbelow
        rw [← without_cons hne] at hbelow
        exact ih (component_distinct hdistinct name) (component_distinct hdistinct' name)
          (hcatalogues.component hne) (hcatalogues.unused name) hbelow

end Catalogues

section Documents

variable (schema : Json) (fresh : Str)

-- An entry, and that entry with its schemas hoisted.
structure EntryHoisted (entry entry' : Fields) : Prop where
  schemas : ∀ name ∈ schemaFields,
    Option.Rel (Hoisted schema fresh .schema) (Entries.get? name entry) (Entries.get? name entry')
  others : ∀ name, name ∉ schemaFields → Entries.get? name entry' = Entries.get? name entry

inductive ItemHoisted : Json → Json → Prop
  | same (value : Json) : ItemHoisted value value
  | entry {entry entry' : Fields} (h : EntryHoisted schema fresh entry entry') : ItemHoisted (.obj entry) (.obj entry')

inductive MemberHoisted : Json → Json → Prop
  | same (value : Json) : MemberHoisted value value
  | entries {items items' : List Json} (h : List.Forall₂ (ItemHoisted schema fresh) items items') :
      MemberHoisted (.arr items) (.arr items')

-- A document, and that document with the schema hoisted at some positions.
structure DocumentsHoisted [UnicodeData] (document document' : Fields) : Prop where
  members : ∀ member : Member,
    MemberHoisted schema fresh (Json.getField document member.key) (Json.getField document' member.key)
  catalogues : CataloguesHoisted schema fresh (schemasOf document) (schemasOf document')
  unused : ∀ member listed, listedEntries document member = .ok listed → ∀ entry ∈ listed,
    ∀ name ∈ schemaFields, ∀ root, Entries.get? name entry = some root → fresh ∉ (read .schema root).refs

variable {schema fresh}

theorem EntryHoisted.refl (entry : Fields) : EntryHoisted schema fresh entry entry where
  schemas := by
    intro name _
    cases Entries.get? name entry with
    | none => exact .none
    | some value => exact .some (.same _ _)
  others := fun _ _ => rfl

theorem filterMap_hoisted {items items' : List Json} (h : List.Forall₂ (ItemHoisted schema fresh) items items') :
    List.Forall₂ (EntryHoisted schema fresh) (items.filterMap mapping?) (items'.filterMap mapping?) := by
  induction h with
  | nil => exact .nil
  | @cons value _ _ _ hhead _ ih =>
      cases hhead with
      | entry hentry => exact .cons hentry ih
      | same =>
          cases value with
          | obj entry => exact .cons (.refl entry) ih
          | null | bool _ | int _ | float _ | str _ | arr _ => exact ih

theorem mappings_hoisted {value value' : Json} (h : MemberHoisted schema fresh value value') :
    (∃ error, mappings value = .error error ∧ mappings value' = .error error) ∨
      ∃ entries entries', mappings value = .ok entries ∧ mappings value' = .ok entries' ∧
        List.Forall₂ (EntryHoisted schema fresh) entries entries' := by
  cases h with
  | same =>
      cases hentries : mappings value with
      | error error => exact .inl ⟨error, rfl, rfl⟩
      | ok entries => exact .inr ⟨entries, entries, rfl, rfl, List.forall₂_same.mpr fun entry _ => .refl entry⟩
  | entries h => exact .inr ⟨_, _, mappings_of_arr _, mappings_of_arr _, filterMap_hoisted h⟩

theorem schemasOf_distinct {document : Fields} (h : (Json.obj document).Distinct) :
    ∀ entry ∈ schemasOf document, entry.2.Distinct := by
  have hcomponents := Json.distinct_getField h "components"
  unfold schemasOf
  split
  next components heq =>
    rw [heq] at hcomponents
    have hschemas := Json.distinct_getField hcomponents "schemas"
    split
    next schemas heq' =>
      rw [heq'] at hschemas
      exact (Json.distinct_obj.mp hschemas).2
    next => simp
  next => simp

theorem EntryHoisted.samePlace {entry entry' : Fields} (h : EntryHoisted schema fresh entry entry') :
    SamePlace entry entry' :=
  ⟨(h.others "topic" (by decide)).symm, (h.others "version" (by decide)).symm⟩

theorem mappings_distinct {value : Json} (h : value.Distinct) {entries : List Fields}
    (hentries : mappings value = .ok entries) : ∀ entry ∈ entries, (Json.obj entry).Distinct := by
  obtain ⟨items, hitems, hok⟩ := Except.bind_eq_ok.mp hentries
  cases hok
  have hempty : (Json.arr []).Distinct := Json.distinct_arr.mpr (by simp)
  have hall := Json.distinct_iter (Json.distinct_orElse h hempty) hitems
  intro entry hentry
  obtain ⟨item, hm, hitem⟩ := List.mem_filterMap.mp hentry
  cases item with
  | obj fields =>
      cases hitem
      exact hall _ hm
  | null | bool _ | int _ | float _ | str _ | arr _ => cases hitem

variable [UnicodeData] {document document' : Fields}

theorem EntryHoisted.isReserved_eq {entry entry' : Fields} (h : EntryHoisted schema fresh entry entry') :
    isReserved entry = isReserved entry' := by
  unfold isReserved getText
  rw [h.others "topic" (by decide)]

theorem listedEntries_distinct (hdistinct : (Json.obj document).Distinct) {member : Member} {listed : List Fields}
    (h : listedEntries document member = .ok listed) : ∀ entry ∈ listed, (Json.obj entry).Distinct := by
  obtain ⟨entries, hentries, hok⟩ := Except.bind_eq_ok.mp h
  cases hok
  intro entry hentry
  exact mappings_distinct (Json.distinct_getField hdistinct _) hentries entry (List.mem_of_mem_filter hentry)

theorem listedEntries_hoisted (h : DocumentsHoisted schema fresh document document') (member : Member) :
    (∃ error, listedEntries document member = .error error ∧ listedEntries document' member = .error error) ∨
      ∃ listed listed', listedEntries document member = .ok listed ∧ listedEntries document' member = .ok listed' ∧
        List.Forall₂ (EntryHoisted schema fresh) listed listed' := by
  unfold listedEntries
  rcases mappings_hoisted (h.members member) with ⟨error, hleft, hright⟩ | ⟨entries, entries', hleft, hright, hall⟩
  · rw [hleft, hright]
    exact .inl ⟨error, rfl, rfl⟩
  · rw [hleft, hright]
    refine .inr ⟨_, _, rfl, rfl, ?_⟩
    apply forall₂_filter _ hall
    intro entry entry' hentry
    rw [hentry.isReserved_eq]

-- The schemas of an entry that a member's projection reads, each with what it meets.
def EntryUndisturbed (schema : Json) (fresh : Str) (catalogue catalogue' : Fields) (member : Member)
    (entry' : Fields) : Prop :=
  ∀ name ∈ entryFields member, name ∈ schemaFields → ∀ root, Entries.get? name entry' = some root →
    ∀ path visited, Meets catalogue' [] root path visited → Unmoved schema fresh catalogue path visited

section Entry

variable {catalogue catalogue' entry entry' : Fields} {member : Member}
  (hcatalogues : CataloguesHoisted schema fresh catalogue catalogue')
  (hdistinct : ∀ component ∈ catalogue, component.2.Distinct)
  (hdistinct' : ∀ component ∈ catalogue', component.2.Distinct)
  (h : EntryHoisted schema fresh entry entry') (hentry : (Json.obj entry).Distinct)
  (hentry' : (Json.obj entry').Distinct) (hunused : ∀ name ∈ schemaFields, ∀ root,
    Entries.get? name entry = some root → fresh ∉ (read .schema root).refs)

include hcatalogues hdistinct hdistinct' h hentry hunused in
theorem projectEntry_hoisted (hunmoved : EntryUndisturbed schema fresh catalogue catalogue' member entry') :
    projectEntry catalogue entry (entryFields member) = projectEntry catalogue' entry' (entryFields member) := by
  apply projectEntry_congr
  intro name hname
  by_cases hschema : name ∈ schemaFields
  · have hrel := h.schemas name hschema
    rw [fieldOf_schema hschema, fieldOf_schema hschema]
    cases hv : Entries.get? name entry with
    | none =>
        rw [hv] at hrel
        generalize Entries.get? name entry' = right at hrel
        cases hrel
        rfl
    | some root =>
        cases hw : Entries.get? name entry' with
        | none =>
            rw [hv, hw] at hrel
            cases hrel
        | some root' =>
            rw [hv, hw] at hrel
            cases hrel with
            | some hroot =>
                have hkept := normalize_hoisted hcatalogues hdistinct (hcatalogues.schema_distinct hdistinct')
                  (Json.distinct_get? hentry hv) hroot (hunused name hschema root hv)
                  (hunmoved name hname hschema root' hw)
                exact congrArg some hkept.symm
  · unfold fieldOf
    rw [h.others name hschema]
    congr 1
    funext value
    unfold projectField
    rw [if_neg hschema, if_neg hschema]

include hcatalogues hdistinct hdistinct' h hentry hentry' hunused in
theorem undisturbed_of_agrees (hagrees : EntryAgrees catalogue catalogue' member entry entry') :
    EntryUndisturbed schema fresh catalogue catalogue' member entry' := by
  obtain ⟨p, q, hp, hq, hsame⟩ := hagrees
  intro name hname hschema root' hw path visited hmeets
  have hfield := projectEntry_agree (nodup_entryFields member) hp hq hsame name hname
  have hrel := h.schemas name hschema
  rw [fieldOf_schema hschema, fieldOf_schema hschema, hw] at hfield
  cases hv : Entries.get? name entry with
  | none =>
      rw [hv, hw] at hrel
      cases hrel
  | some root =>
      rw [hv] at hfield
      rw [hv, hw] at hrel
      cases hrel with
      | some hroot =>
          cases hfield with
          | some hagree =>
              have hroots : Agree (normalize catalogue (without fresh []) root) (normalize catalogue' [] root') :=
                hagree
              exact unmoved_of_agree hcatalogues hdistinct hdistinct' (Json.distinct_get? hentry hv)
                (Json.distinct_get? hentry' hw) hroot (hunused name hschema root hv) hroots hmeets

end Entry

-- No schema that the projection reads is moved.
def Undisturbed (schema : Json) (fresh : Str) (document document' : Fields) (members : List Member) : Prop :=
  ∀ member ∈ members, ∀ listed, listedEntries document' member = .ok listed → ∀ entry ∈ listed,
    EntryUndisturbed schema fresh (schemasOf document) (schemasOf document') member entry

theorem projectMember_of_listed {member : Member} {listed : List Fields}
    (h : listedEntries document member = .ok listed) :
    projectMember document member = projectEntries (schemasOf document) member listed := by
  unfold projectMember
  rw [h]
  rfl

theorem projectMember_hoisted (hdistinct : (Json.obj document).Distinct) (hdistinct' : (Json.obj document').Distinct)
    (h : DocumentsHoisted schema fresh document document') {member : Member}
    (hunmoved : ∀ listed, listedEntries document' member = .ok listed → ∀ entry ∈ listed,
      EntryUndisturbed schema fresh (schemasOf document) (schemasOf document') member entry) :
    projectMember document member = projectMember document' member := by
  rcases listedEntries_hoisted h member with ⟨error, hleft, hright⟩ | ⟨listed, listed', hleft, hright, hall⟩
  · unfold projectMember
    rw [hleft, hright]
    show (Except.error error : Except PyError Json) = .error error
    rfl
  · rw [projectMember_of_listed hleft, projectMember_of_listed hright]
    apply projectEntries_congr
    rw [List.forall₂_iff_zip] at hall ⊢
    refine ⟨hall.1, ?_⟩
    intro entry entry' hpair
    obtain ⟨hentry, hentry'⟩ := List.of_mem_zip hpair
    exact projectEntry_hoisted h.catalogues (schemasOf_distinct hdistinct) (schemasOf_distinct hdistinct')
      (hall.2 hpair) (listedEntries_distinct hdistinct hleft entry hentry)
      (h.unused member listed hleft entry hentry) (hunmoved listed' hright entry' hentry')

theorem undisturbed_of_agree (hdistinct : (Json.obj document).Distinct) (hdistinct' : (Json.obj document').Distinct)
    (h : DocumentsHoisted schema fresh document document') {member : Member}
    (hagree : Agree (projectMember document member) (projectMember document' member)) :
    ∀ listed, listedEntries document' member = .ok listed → ∀ entry ∈ listed,
      EntryUndisturbed schema fresh (schemasOf document) (schemasOf document') member entry := by
  intro listed' hright
  rcases listedEntries_hoisted h member with ⟨error, -, herror⟩ | ⟨listed, other, hleft, hright', hall⟩
  · rw [hright] at herror
    cases herror
  · rw [hright] at hright'
    cases hright'
    rw [projectMember_of_listed hleft, projectMember_of_listed hright] at hagree
    have hagrees := projectEntries_agree (hall.imp fun _ _ hentry => hentry.samePlace) hagree
    have hpairs : List.Forall₂ (fun entry entry' => EntryHoisted schema fresh entry entry' ∧
        EntryAgrees (schemasOf document) (schemasOf document') member entry entry') listed listed' := by
      rw [List.forall₂_iff_zip] at hall hagrees ⊢
      exact ⟨hall.1, fun hpair => ⟨hall.2 hpair, hagrees.2 hpair⟩⟩
    intro entry' hentry'
    obtain ⟨entry, hentry, hhoisted, hboth⟩ := exists_of_mem_right hpairs hentry'
    exact undisturbed_of_agrees h.catalogues (schemasOf_distinct hdistinct) (schemasOf_distinct hdistinct')
      hhoisted (listedEntries_distinct hdistinct hleft entry hentry)
      (listedEntries_distinct hdistinct' hright entry' hentry') (h.unused member listed hleft entry hentry) hboth

-- Hoisting a schema keeps the projection, and with it the hashes, if it moves no schema
-- that the projection reads; and as far as there is a projection, only then.
theorem projection_hoisted (hdistinct : (Json.obj document).Distinct) (hdistinct' : (Json.obj document').Distinct)
    (h : DocumentsHoisted schema fresh document document') (members : List Member) :
    (Undisturbed schema fresh document document' members →
      projection document' members = projection document members ∧
        ∀ hash, hashProjection hash document' members = hashProjection hash document members) ∧
    ∀ p, projection document members = .ok p → projection document' members = .ok p →
      Undisturbed schema fresh document document' members := by
  constructor
  · intro hundisturbed
    have hsame : projection document' members = projection document members := by
      induction members with
      | nil => rfl
      | cons member rest ih =>
          obtain ⟨hmember, hrest⟩ := List.forall_mem_cons.mp hundisturbed
          rw [projection, projection, projectMember_hoisted hdistinct hdistinct' h hmember, ih hrest]
    exact ⟨hsame, fun hash => hashProjection_congr hsame hash⟩
  · intro p hp hp'
    have hagree := projectMember_of_canonical hp hp' rfl
    intro member hmember
    exact undisturbed_of_agree hdistinct hdistinct' h (hagree member hmember)

end Documents

section Samples

-- One entry over some components.
def orderDocument (request : Json) (schemas : Fields) : Fields :=
  [Json.field "requests" (.arr [.obj [Json.field "topic" (.str "order"), Json.field "request" request]]),
    Json.field "components" (.obj [Json.field "schemas" (.obj schemas)])]

theorem root_orderDocument {request root : Json} {schemas : Fields} {member : Member} {listed : List Fields} :
    letI := UnicodeData.ascii
    listedEntries (orderDocument request schemas) member = .ok listed → ∀ entry ∈ listed,
      ∀ name ∈ schemaFields, Entries.get? name entry = some root → root = request := by
  let _ := UnicodeData.ascii
  intro hlisted entry hentry name hname hroot
  cases member with
  | requests =>
      have hsame : Except.ok [[Json.field "topic" (.str "order"), Json.field "request" request]] =
          (Except.ok listed : Except PyError (List Fields)) := hlisted
      cases hsame
      rw [List.mem_singleton] at hentry
      subst hentry
      simp only [schemaFields, List.mem_cons, List.not_mem_nil, or_false] at hname
      rcases hname with rfl | rfl | rfl
      · cases hroot
        rfl
      · cases hroot
      · cases hroot
  | events | sends =>
      have hsame : Except.ok [] = (Except.ok listed : Except PyError (List Fields)) := hlisted
      cases hsame
      cases hentry

theorem members_orderDocument {schema request request' : Json} {fresh : Str} {schemas schemas' : Fields}
    (h : Hoisted schema fresh .schema request request') (member : Member) : MemberHoisted schema fresh
      (Json.getField (orderDocument request schemas) member.key)
      (Json.getField (orderDocument request' schemas') member.key) := by
  cases member with
  | requests =>
      refine .entries (.cons (.entry ⟨?_, ?_⟩) .nil)
      · intro name hname
        simp only [schemaFields, List.mem_cons, List.not_mem_nil, or_false] at hname
        rcases hname with rfl | rfl | rfl
        · exact .some h
        · exact .none
        · exact .none
      · intro name hname
        have hne : ("request" : Str) ≠ name := by
          rintro rfl
          exact hname (by decide)
        simp [hne]
  | events | sends => exact .same _

-- A node leads to the next by a link, which is written in place or hoisted.
def linkSchema : Json := .obj [Json.field "properties" (.obj [Json.field "to" (referenceTo "Node")])]

def linkedSchema (next : Json) : Json := .obj [Json.field "properties" (.obj [Json.field "next" next])]

def linkedDocument : Fields := orderDocument (referenceTo "Node") [("Node", linkedSchema linkSchema)]

def hoistedDocument : Fields := orderDocument (referenceTo "Node")
  [("Node", linkedSchema (referenceTo "Link")), ("Link", linkSchema)]

theorem component_hoistedDocument : component (schemasOf hoistedDocument) "Node" = linkedSchema (referenceTo "Link") ∧
    component (schemasOf hoistedDocument) "Link" = linkSchema := ⟨rfl, rfl⟩

theorem link_hoisted : letI := UnicodeData.ascii
    DocumentsHoisted linkSchema "Link" linkedDocument hoistedDocument := by
  let _ := UnicodeData.ascii
  refine ⟨members_orderDocument (.same _ _), ⟨?_, rfl, by decide, ?_, by decide⟩, ?_⟩
  · intro name hname
    show Option.Rel _ (Entries.get? name [(("Node" : Str), linkedSchema linkSchema)])
      (Entries.get? name [(("Node" : Str), linkedSchema (referenceTo "Link")), ("Link", linkSchema)])
    rw [Entries.get?_cons, Entries.get?_cons]
    by_cases hnode : "Node" = name
    · rw [if_pos hnode, if_pos hnode]
      exact .some (.keywords (.cons (.properties (.cons .here .nil)) .nil))
    · rw [if_neg hnode, if_neg hnode, Entries.get?_cons, if_neg hname.symm]
      exact .none
  · intro name
    show ("Link" : Str) ∉ (read .schema (component [(("Node" : Str), linkedSchema linkSchema)] name)).refs
    unfold component
    rw [Entries.get?_cons]
    split
    · decide
    · show ("Link" : Str) ∉ (read .schema (.obj [])).refs
      decide
  · intro member listed hlisted entry hentry name hname root hroot
    rw [root_orderDocument hlisted entry hentry name hname hroot]
    decide

-- On the way around the cycle the link is met once, and what it leads back to is cut.
theorem link_undisturbed : letI := UnicodeData.ascii
    Undisturbed linkSchema "Link" linkedDocument hoistedDocument [.requests] := by
  let _ := UnicodeData.ascii
  obtain ⟨hnode, hlink⟩ := component_hoistedDocument
  have hnodeRefs : (read .schema (linkedSchema (referenceTo "Link"))).refs = [("Link" : Str)] ∧
      (read .schema (linkedSchema (referenceTo "Link"))).wrapped = [] := by decide
  have hlinkRefs : (read .schema linkSchema).refs = [("Node" : Str)] ∧
      (read .schema linkSchema).wrapped = [] := by decide
  intro member _ listed hlisted entry hentry name _ hname root hroot path visited hmeets
  rw [root_orderDocument hlisted entry hentry name hname hroot] at hmeets
  cases hmeets with
  | here => exact ⟨by simp, by rw [read_referenceTo]; exact fun hwrapped => nomatch hwrapped⟩
  | there href hcut hbelow =>
      rw [read_referenceTo, Shape.refs, List.mem_singleton] at href
      subst href
      rw [hnode] at hbelow
      cases hbelow with
      | here => exact ⟨fun _ hpath => absurd hpath (by decide), by simp [hnodeRefs.2]⟩
      | there href hcut hbelow =>
          rw [hnodeRefs.1, List.mem_singleton] at href
          subst href
          rw [hlink] at hbelow
          cases hbelow with
          | here => exact ⟨fun href => absurd href (by rw [hlinkRefs.1]; decide), by simp [hlinkRefs.2]⟩
          | there href hcut =>
              rw [hlinkRefs.1, List.mem_singleton] at href
              subst href
              exact absurd hcut (by decide)

theorem projection_hoisted_link : letI := UnicodeData.ascii
    projection hoistedDocument [.requests] = projection linkedDocument [.requests] := by
  let _ := UnicodeData.ascii
  have hdistinct : (Json.obj linkedDocument).Distinct := by
    simp [linkedDocument, orderDocument, linkedSchema, linkSchema, referenceTo, Json.Distinct, Json.DistinctFields,
      Json.DistinctItems]
  have hdistinct' : (Json.obj hoistedDocument).Distinct := by
    simp [hoistedDocument, orderDocument, linkedSchema, linkSchema, referenceTo, Json.Distinct, Json.DistinctFields,
      Json.DistinctItems]
  exact ((projection_hoisted hdistinct hdistinct' link_hoisted [.requests]).1 link_undisturbed).1

-- A component that refers to itself, nullably.
def nodeSchema (next : Json) : Json :=
  .obj [Json.field "properties" (.obj [Json.field "next"
    (.obj [Json.field "nullable" (.bool true), Json.field "allOf" (.arr [next])])])]

def nodeDocument : Fields := orderDocument (referenceTo "Node") [("Node", nodeSchema (referenceTo "Node"))]

def aliasDocument : Fields := orderDocument (referenceTo "Node")
  [("Node", nodeSchema (referenceTo "Alias")), ("Alias", referenceTo "Node")]

-- The wrapper is cut where it refers to the component, and not where to its alias.
theorem not_projection_hoisted : letI := UnicodeData.ascii
    DocumentsHoisted (referenceTo "Node") "Alias" nodeDocument aliasDocument ∧
      projection aliasDocument [.requests, .events] ≠ projection nodeDocument [.requests, .events] ∧
      contractHash (fun value => .ok value.repr) aliasDocument ≠
        contractHash (fun value => .ok value.repr) nodeDocument := by
  let _ := UnicodeData.ascii
  refine ⟨⟨members_orderDocument (.same _ _), ⟨?_, rfl, by decide, ?_, by decide⟩, ?_⟩, ?_, ?_⟩
  · intro name hname
    show Option.Rel _ (Entries.get? name [(("Node" : Str), nodeSchema (referenceTo "Node"))])
      (Entries.get? name [(("Node" : Str), nodeSchema (referenceTo "Alias")), ("Alias", referenceTo "Node")])
    rw [Entries.get?_cons, Entries.get?_cons]
    by_cases hnode : "Node" = name
    · rw [if_pos hnode, if_pos hnode]
      exact .some (.keywords (.cons (.properties (.cons (.keywords (.cons (.same _ _)
        (.cons (.branches (.cons .here .nil)) .nil))) .nil)) .nil))
    · rw [if_neg hnode, if_neg hnode, Entries.get?_cons, if_neg hname.symm]
      exact .none
  · intro name
    show ("Alias" : Str) ∉ (read .schema (component [(("Node" : Str), nodeSchema (referenceTo "Node"))] name)).refs
    unfold component
    rw [Entries.get?_cons]
    split
    · decide
    · show ("Alias" : Str) ∉ (read .schema (.obj [])).refs
      decide
  · intro member listed hlisted entry hentry name hname root hroot
    rw [root_orderDocument hlisted entry hentry name hname hroot]
    decide
  · decide +kernel
  · decide +kernel

end Samples

end Benzene.Contract
