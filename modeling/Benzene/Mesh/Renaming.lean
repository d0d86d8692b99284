import Benzene.Mesh.Artifacts
import Benzene.Mesh.Graph
import Benzene.Mesh.Sound

namespace Benzene.Mesh

open Benzene.Data Benzene.Data.Json Benzene.Results

section Renaming

-- The keys that lead to a value, the innermost first. The items of an array
-- start anew.
def namesComponent (path : List Str) : Bool :=
  path.take 1 = [("$ref" : Str)] || (path.drop 1).take 2 = [("mapping" : Str), ("discriminator" : Str)]

variable (ρ : Str → Str)

def renameRef (text : Str) : Str :=
  match Str.stripPrefix? schemaRefPrefix text with
  | some name => schemaRefPrefix ++ ρ name
  | none => text

mutual

-- Renames the components in every `$ref` and in every target of a
-- `discriminator.mapping`.
def renameAt (path : List Str) : Json → Json
  | .str text => .str (if namesComponent path then renameRef ρ text else text)
  | .arr items => .arr (renameItems items)
  | .obj fields => .obj (renameFields path fields)
  | value => value

def renameItems : List Json → List Json
  | [] => []
  | item :: rest => renameAt [] item :: renameItems rest

def renameFields (path : List Str) : Fields → Fields
  | [] => []
  | (key, value) :: rest => (key, renameAt (key :: path) value) :: renameFields path rest

end

def renameSchema (schema : Json) : Json := renameAt ρ [] schema

def renameCatalogue (schemas : Fields) : Fields :=
  schemas.map fun entry => (ρ entry.1, renameSchema ρ entry.2)

-- Rewrites the members that `p` picks.
def rewriteFields (p : Str → Bool) (f : Json → Json) (fields : Fields) : Fields :=
  fields.map fun field => (field.1, if p field.1 then f field.2 else field.2)

def onObject (f : Fields → Fields) : Json → Json
  | .obj fields => .obj (f fields)
  | value => value

def onItems (f : Json → Json) : Json → Json
  | .arr items => .arr (items.map f)
  | value => value

-- An entry of a document has its schemas under these members.
def entrySchemas : List Str := ["request", "response", "message"].map Str.ofString

def renameEntry (entry : Fields) : Fields :=
  rewriteFields (fun key => key ∈ entrySchemas) (renameSchema ρ) entry

def renameComponents : Json → Json :=
  onObject (rewriteFields (fun key => key = "schemas") (onObject (renameCatalogue ρ)))

-- The document after the renaming of its schema components.
def renameDocument (document : Fields) : Fields :=
  rewriteFields (fun key => key = "components") (renameComponents ρ)
    (rewriteFields (fun key => key ∈ Member.all.map Member.key)
      (onItems (onObject (renameEntry ρ))) document)

theorem renameItems_eq (items : List Json) : renameItems ρ items = items.map (renameAt ρ []) := by
  induction items with
  | nil => rfl
  | cons item rest ih => rw [renameItems, ih, List.map_cons]

theorem renameFields_eq (path : List Str) (fields : Fields) :
    renameFields ρ path fields = fields.map fun field => (field.1, renameAt ρ (field.1 :: path) field.2) := by
  induction fields with
  | nil => rfl
  | cons field rest ih =>
      obtain ⟨key, value⟩ := field
      rw [renameFields, ih, List.map_cons]

theorem get?_renameFields (path : List Str) (key : Str) (fields : Fields) :
    Entries.get? key (renameFields ρ path fields) =
      (Entries.get? key fields).map (renameAt ρ (key :: path)) := by
  induction fields with
  | nil => rfl
  | cons field rest ih =>
      obtain ⟨k, value⟩ := field
      rw [renameFields, Entries.get?_cons, Entries.get?_cons, ih]
      by_cases hk : k = key
      · subst hk
        simp
      · simp [hk]

-- A reference refers to the renamed component.
theorem schemaRef?_renameFields (path : List Str) (fields : Fields) :
    schemaRef? (renameFields ρ path fields) = (schemaRef? fields).map ρ := by
  have hnames : namesComponent (("$ref" : Str) :: path) = true := by simp [namesComponent]
  unfold schemaRef? Json.getField
  rw [get?_renameFields]
  cases Entries.get? ("$ref" : Str) fields with
  | none => rfl
  | some value =>
      cases value with
      | str text =>
          simp only [Option.map_some, Option.getD_some, renameAt, hnames, if_true, renameRef]
          cases hstrip : Str.stripPrefix? schemaRefPrefix text with
          | none => simp only [hstrip, Option.map_none]
          | some name => simp only [Str.stripPrefix?_eq_some.mpr rfl, Option.map_some]
      | _ => rfl

theorem get?_rewriteFields (p : Str → Bool) (f : Json → Json) (key : Str) (fields : Fields) :
    Entries.get? key (rewriteFields p f fields) =
      (Entries.get? key fields).map fun value => if p key then f value else value := by
  induction fields with
  | nil => rfl
  | cons field rest ih =>
      obtain ⟨k, value⟩ := field
      rw [rewriteFields, List.map_cons] at *
      rw [Entries.get?_cons, Entries.get?_cons, ih]
      by_cases hk : k = key
      · subst hk
        simp
      · simp [hk]

theorem getField_rewriteFields_of_pos {p : Str → Bool} {f : Json → Json} (hf : f .null = .null) {key : Str}
    (hp : p key = true) (fields : Fields) :
    Json.getField (rewriteFields p f fields) key = f (Json.getField fields key) := by
  unfold Json.getField
  rw [get?_rewriteFields]
  cases Entries.get? key fields with
  | none => exact hf.symm
  | some value => simp [hp]

theorem getField_rewriteFields_of_neg {p : Str → Bool} {key : Str} (hp : p key = false) (f : Json → Json)
    (fields : Fields) : Json.getField (rewriteFields p f fields) key = Json.getField fields key := by
  unfold Json.getField
  rw [get?_rewriteFields]
  simp [hp]

variable {ρ}

theorem get?_renameCatalogue (hρ : Function.Injective ρ) (name : Str) (schemas : Fields) :
    Entries.get? (ρ name) (renameCatalogue ρ schemas) =
      (Entries.get? name schemas).map (renameSchema ρ) := by
  induction schemas with
  | nil => rfl
  | cons entry rest ih =>
      obtain ⟨k, schema⟩ := entry
      rw [renameCatalogue, List.map_cons] at *
      rw [Entries.get?_cons, Entries.get?_cons, ih]
      by_cases hk : k = name
      · subst hk
        simp
      · have hne : ρ k ≠ ρ name := fun he => hk (hρ he)
        simp [hk, hne]

end Renaming

section Expansion

mutual

-- The components an expansion replaces references by.
def references : Json → List Str
  | .obj fields =>
      match schemaRef? fields with
      | some name => [name]
      | none => fieldReferences fields
  | .arr items => itemReferences items
  | _ => []

def itemReferences : List Json → List Str
  | [] => []
  | item :: rest => references item ++ itemReferences rest

def fieldReferences : Fields → List Str
  | [] => []
  | (_, value) :: rest => references value ++ fieldReferences rest

end

mutual

-- The components an expansion leaves named: the targets of a mapping.
def targets (path : List Str) : Json → List Str
  | .str text => if namesComponent path then (Str.stripPrefix? schemaRefPrefix text).toList else []
  | .obj fields =>
      match schemaRef? fields with
      | some _ => []
      | none => fieldTargets path fields
  | .arr items => itemTargets items
  | _ => []

def itemTargets : List Json → List Str
  | [] => []
  | item :: rest => targets [] item ++ itemTargets rest

def fieldTargets (path : List Str) : Fields → List Str
  | [] => []
  | (key, value) :: rest => targets (key :: path) value ++ fieldTargets path rest

end

theorem mem_itemReferences {items : List Json} {name : Str} :
    name ∈ itemReferences items ↔ ∃ item ∈ items, name ∈ references item := by
  induction items with
  | nil => simp [itemReferences]
  | cons item rest ih => simp [itemReferences, ih]

theorem mem_fieldReferences {fields : Fields} {name : Str} :
    name ∈ fieldReferences fields ↔ ∃ field ∈ fields, name ∈ references field.2 := by
  induction fields with
  | nil => simp [fieldReferences]
  | cons field rest ih => simp [fieldReferences, ih]

theorem mem_itemTargets {items : List Json} {name : Str} :
    name ∈ itemTargets items ↔ ∃ item ∈ items, name ∈ targets [] item := by
  induction items with
  | nil => simp [itemTargets]
  | cons item rest ih => simp [itemTargets, ih]

theorem mem_fieldTargets {path : List Str} {fields : Fields} {name : Str} :
    name ∈ fieldTargets path fields ↔ ∃ field ∈ fields, name ∈ targets (field.1 :: path) field.2 := by
  induction fields with
  | nil => simp [fieldTargets]
  | cons field rest ih => simp [fieldTargets, ih]

variable {ρ : Str → Str}

theorem renameRef_eq_self {text : Str} :
    renameRef ρ text = text ↔ ∀ name ∈ Str.stripPrefix? schemaRefPrefix text, ρ name = name := by
  unfold renameRef
  cases hstrip : Str.stripPrefix? schemaRefPrefix text with
  | none => simp
  | some name =>
      have htext := Str.stripPrefix?_eq_some.mp hstrip
      simp [htext]

-- One level of the expansion: the renamed value expands to what the value
-- expands to when its references do and its targets keep their names.
theorem resolveWith_renameAt {expand expand' : Str → Json} {path : List Str} {j : Json} :
    resolveWith expand' (renameAt ρ path j) = resolveWith expand j ↔
      (∀ name ∈ references j, expand' (ρ name) = expand name) ∧ ∀ name ∈ targets path j, ρ name = name := by
  induction j using Json.induct generalizing path with
  | str text =>
      by_cases hnames : namesComponent path
      · simp [renameAt, resolveWith, references, targets, hnames, renameRef_eq_self]
      · simp [renameAt, resolveWith, references, targets, hnames]
  | arr items ih =>
      rw [renameAt, renameItems_eq, resolveWith, resolveWith, resolveItems_eq, resolveItems_eq, List.map_map,
        Json.arr.injEq, List.map_inj_left, references, targets]
      simp only [mem_itemReferences, mem_itemTargets, Function.comp]
      constructor
      · intro h
        constructor
        · rintro name ⟨item, hitem, hname⟩
          exact ((ih item hitem).mp (h item hitem)).1 name hname
        · rintro name ⟨item, hitem, hname⟩
          exact ((ih item hitem).mp (h item hitem)).2 name hname
      · rintro ⟨hreferences, htargets⟩ item hitem
        exact (ih item hitem).mpr ⟨fun name hname => hreferences name ⟨item, hitem, hname⟩,
          fun name hname => htargets name ⟨item, hitem, hname⟩⟩
  | obj fields ih =>
      have href := schemaRef?_renameFields ρ path fields
      cases hname : schemaRef? fields with
      | some name =>
          rw [hname, Option.map_some] at href
          simp [renameAt, resolveWith, references, targets, href, hname]
      | none =>
          rw [hname, Option.map_none] at href
          simp only [renameAt, resolveWith, references, targets, href, hname]
          simp only [resolveFields_eq, renameFields_eq, Entries.mapValues, List.map_map, Json.obj.injEq,
            List.map_inj_left, Function.comp, Prod.mk.injEq, true_and, mem_fieldReferences, mem_fieldTargets]
          constructor
          · intro h
            constructor
            · rintro name ⟨field, hfield, hname⟩
              exact ((ih field hfield).mp (h field hfield)).1 name hname
            · rintro name ⟨field, hfield, hname⟩
              exact ((ih field hfield).mp (h field hfield)).2 name hname
          · rintro ⟨hreferences, htargets⟩ field hfield
            exact (ih field hfield).mpr ⟨fun name hname => hreferences name ⟨field, hfield, hname⟩,
              fun name hname => htargets name ⟨field, hfield, hname⟩⟩
  | _ => simp [renameAt, resolveWith, references, targets]

variable {schemas : Fields}

-- The schemas an expansion of a schema goes through, each with the components
-- on the way to it.
inductive Reaches (schemas : Fields) : Json → List Str → Json → Prop
  | here {schema : Json} : Reaches schemas schema [] schema
  | expand {schema last : Json} {name : Str} {target : Fields} {names : List Str}
      (hname : name ∈ references schema) (htarget : Entries.get? name schemas = some (.obj target))
      (hrest : Reaches schemas (.obj target) names last) : Reaches schemas schema (name :: names) last

-- Those the expansion gets to before it is cut.
inductive Visits (schemas : Fields) : Nat → List Str → Json → Json → Prop
  | here {fuel : Nat} {seen : List Str} {schema : Json} : Visits schemas fuel seen schema schema
  | expand {fuel : Nat} {seen : List Str} {schema last : Json} {name : Str} {target : Fields}
      (hname : name ∈ references schema) (hnew : name ∉ seen)
      (htarget : Entries.get? name schemas = some (.obj target))
      (hrest : Visits schemas fuel (name :: seen) (.obj target) last) :
      Visits schemas (fuel + 1) seen schema last

theorem Visits.reaches {fuel : Nat} {seen : List Str} {schema last : Json}
    (h : Visits schemas fuel seen schema last) : ∃ names, Reaches schemas schema names last := by
  induction h with
  | here => exact ⟨[], .here⟩
  | expand hname _ htarget _ ih =>
      obtain ⟨names, hnames⟩ := ih
      exact ⟨_, .expand hname htarget hnames⟩

theorem Reaches.mem_keys {schema last : Json} {names : List Str} (h : Reaches schemas schema names last) :
    ∀ name ∈ names, name ∈ Entries.keys schemas := by
  induction h with
  | here => simp
  | @expand schema last name target names _ htarget _ ih =>
      have hmem : name ∈ Entries.keys schemas := by
        by_contra hnone
        rw [(Entries.get?_eq_none_iff _ _).mpr hnone] at htarget
        cases htarget
      exact List.forall_mem_cons.mpr ⟨hmem, ih⟩

-- What comes after a component is reached from it.
theorem Reaches.from {schema last : Json} {names : List Str} (h : Reaches schemas schema names last) {name : Str}
    (hname : name ∈ names) : ∃ rest target, (name :: rest) <:+ names ∧
      Entries.get? name schemas = some (.obj target) ∧ Reaches schemas (.obj target) rest last := by
  induction h with
  | here => cases hname
  | @expand schema last first target names _ htarget hrest ih =>
      rcases List.mem_cons.mp hname with rfl | hlater
      · exact ⟨names, target, List.suffix_rfl, htarget, hrest⟩
      · obtain ⟨rest, target', hsuffix, htarget', hreaches⟩ := ih hlater
        exact ⟨rest, target', hsuffix.trans (List.suffix_cons _ _), htarget', hreaches⟩

-- A way that meets a component twice can be cut short.
theorem Reaches.nodup {schema last : Json} {names : List Str} (h : Reaches schemas schema names last) :
    ∃ names', names'.Nodup ∧ Reaches schemas schema names' last := by
  induction h with
  | here => exact ⟨[], List.nodup_nil, .here⟩
  | @expand schema last name target names hname htarget _ ih =>
      obtain ⟨names', hnodup, hreaches⟩ := ih
      by_cases hmem : name ∈ names'
      · obtain ⟨rest, target', hsuffix, htarget', hrest⟩ := hreaches.from hmem
        exact ⟨name :: rest, hnodup.sublist hsuffix.sublist, .expand hname htarget' hrest⟩
      · exact ⟨name :: names', List.nodup_cons.mpr ⟨hmem, hnodup⟩, .expand hname htarget hreaches⟩

theorem Reaches.visits {schema last : Json} {names : List Str} (h : Reaches schemas schema names last)
    (hnodup : names.Nodup) {fuel : Nat} (hfuel : names.length ≤ fuel) {seen : List Str}
    (hseen : ∀ name ∈ names, name ∉ seen) : Visits schemas fuel seen schema last := by
  induction h generalizing fuel seen with
  | here => exact .here
  | @expand schema last name target names hname htarget _ ih =>
      obtain ⟨hfirst, hlater⟩ := List.forall_mem_cons.mp hseen
      obtain ⟨hnew, hnodup⟩ := List.nodup_cons.mp hnodup
      cases fuel with
      | zero => cases hfuel
      | succ fuel =>
          refine .expand hname hfirst htarget (ih hnodup (Nat.le_of_succ_le_succ hfuel) ?_)
          intro other hother hseen
          rcases List.mem_cons.mp hseen with rfl | hold
          · exact hnew hother
          · exact hlater other hother hold

-- The catalogue's length is fuel enough for every component that is reached.
theorem visits_iff_reaches {schema last : Json} :
    Visits schemas schemas.length [] schema last ↔ ∃ names, Reaches schemas schema names last := by
  constructor
  · exact Visits.reaches
  · rintro ⟨names, h⟩
    obtain ⟨names', hnodup, hreaches⟩ := h.nodup
    have hlength : names'.length ≤ (Entries.keys schemas).length :=
      (hnodup.subperm hreaches.mem_keys).length_le
    rw [Entries.keys, List.length_map] at hlength
    exact hreaches.visits hnodup hlength (by simp)

-- The targets of a mapping in the schema keep their names.
def KeepsTargets (ρ : Str → Str) (schema : Json) : Prop := ∀ name ∈ targets [] schema, ρ name = name

theorem resolveIn_rename_iff (hρ : Function.Injective ρ) {fuel : Nat} {seen : List Str} {schema : Json} :
    resolveIn (renameCatalogue ρ schemas) fuel (seen.map ρ) (renameSchema ρ schema) =
        resolveIn schemas fuel seen schema ↔
      ∀ last, Visits schemas fuel seen schema last → KeepsTargets ρ last := by
  induction fuel generalizing seen schema with
  | zero =>
      rw [resolveIn, resolveIn, renameSchema, resolveWith_renameAt]
      constructor
      · rintro ⟨-, htargets⟩ last hvisits
        cases hvisits
        exact htargets
      · intro h
        exact ⟨fun _ _ => rfl, h schema .here⟩
  | succ fuel ih =>
      rw [resolveIn, resolveIn, renameSchema, resolveWith_renameAt]
      constructor
      · rintro ⟨hreferences, htargets⟩ last hvisits
        cases hvisits with
        | here => exact htargets
        | @expand _ _ _ _ name target hname hnew htarget hrest =>
            have hexpand := hreferences name hname
            have hnew' : ρ name ∉ seen.map ρ := fun h => hnew ((List.mem_map_of_injective hρ).mp h)
            rw [if_neg hnew', if_neg hnew, get?_renameCatalogue hρ, htarget] at hexpand
            exact (@ih (name :: seen) (.obj target)).mp hexpand last hrest
      · intro h
        refine ⟨fun name hname => ?_, h schema .here⟩
        by_cases hnew : name ∈ seen
        · rw [if_pos hnew, if_pos (List.mem_map_of_mem hnew)]
        · have hnew' : ρ name ∉ seen.map ρ := fun h => hnew ((List.mem_map_of_injective hρ).mp h)
          rw [if_neg hnew', if_neg hnew, get?_renameCatalogue hρ]
          cases htarget : Entries.get? name schemas with
          | none => rfl
          | some value =>
              cases value with
              | obj target =>
                  exact (@ih (name :: seen) (.obj target)).mpr fun last hlast =>
                    h last (.expand hname hnew htarget hlast)
              | _ => rfl

end Expansion

section Stored

theorem entries_ofEntries_mapValues {α β : Type} (f : α → β) (entries : List (Str × α)) :
    (Dict.ofEntries (Entries.mapValues f entries)).entries =
      Entries.mapValues f (Dict.ofEntries entries).entries :=
  Entries.update_mapValues f [] entries

theorem resolveIn_obj (schemas : Fields) (fuel : Nat) (seen : List Str) (fields : Fields) :
    ∃ out, resolveIn schemas fuel seen (.obj fields) = .obj out := by
  induction fuel generalizing seen fields with
  | zero =>
      rw [resolveIn, resolveWith]
      split <;> exact ⟨_, rfl⟩
  | succ fuel ih =>
      rw [resolveIn, resolveWith]
      split
      · split
        · exact ⟨_, rfl⟩
        · split
          · exact ih _ _
          · exact ⟨_, rfl⟩
      · exact ⟨_, rfl⟩

theorem resolveSchema_obj (schema : Json) (schemas : Fields) : ∃ out, resolveSchema schema schemas = .obj out := by
  unfold resolveSchema
  split
  · exact resolveIn_obj _ _ _ _
  · exact ⟨_, rfl⟩

theorem resolveSchema_rename_iff {ρ : Str → Str} (hρ : Function.Injective ρ) {schema : Json} {schemas : Fields} :
    resolveSchema (renameSchema ρ schema) (renameCatalogue ρ schemas) = resolveSchema schema schemas ↔
      ∀ fields, schema = .obj fields → ∀ names last, Reaches schemas schema names last → KeepsTargets ρ last := by
  cases schema with
  | obj fields =>
      have hlength : (renameCatalogue ρ schemas).length = schemas.length := List.length_map _
      have hresolve : resolveSchema (renameSchema ρ (.obj fields)) (renameCatalogue ρ schemas) =
          resolveIn (renameCatalogue ρ schemas) schemas.length (([] : List Str).map ρ)
            (renameSchema ρ (.obj fields)) := by
        rw [← hlength]
        rfl
      rw [hresolve]
      refine (resolveIn_rename_iff hρ).trans ⟨fun h _ _ names last hreaches => ?_, fun h last hvisits => ?_⟩
      · exact h last (visits_iff_reaches.mpr ⟨names, hreaches⟩)
      · obtain ⟨names, hreaches⟩ := visits_iff_reaches.mp hvisits
        exact h fields rfl names last hreaches
  | _ => simp [renameSchema, renameAt, resolveSchema]

theorem getField_topic_renameEntry (ρ : Str → Str) (entry : Fields) :
    Json.getField (renameEntry ρ entry) "topic" = Json.getField entry "topic" :=
  getField_rewriteFields_of_neg (by decide) _ entry

theorem schemaCatalogue_renameDocument (ρ : Str → Str) (document : Fields) :
    schemaCatalogue (renameDocument ρ document) = renameCatalogue ρ (schemaCatalogue document) := by
  have hcomponents : Json.getField (renameDocument ρ document) "components" =
      renameComponents ρ (Json.getField document "components") :=
    (getField_rewriteFields_of_pos rfl (by simp) _).trans
      (congrArg _ (getField_rewriteFields_of_neg (by decide) _ document))
  unfold schemaCatalogue
  rw [hcomponents]
  cases Json.getField document "components" with
  | obj components =>
      have hschemas : Json.getField
          (rewriteFields (fun key => key = ("schemas" : Str)) (onObject (renameCatalogue ρ)) components) "schemas" =
            onObject (renameCatalogue ρ) (Json.getField components "schemas") :=
        getField_rewriteFields_of_pos rfl (by simp) components
      simp only [renameComponents, onObject, asObject] at hschemas ⊢
      rw [hschemas]
      cases Json.getField components "schemas" <;> rfl
  | _ => rfl

variable [UnicodeData]

theorem entryTopic_renameEntry (ρ : Str → Str) (entry : Fields) : entryTopic (renameEntry ρ entry) = entryTopic entry :=
  congrArg Json.text (getField_topic_renameEntry ρ entry)

-- The topics' contracts that a registration stores.
def specsOf (document : Fields) : Dict Str Fields :=
  Dict.ofEntries ((specEntries document .requests).map fun entry =>
    (entryTopic entry, topicSpec entry (schemaCatalogue document)))

-- The entry each topic is stored from, the last one the document has for it.
def storedEntries (document : Fields) : Dict Str Fields :=
  Dict.ofEntries ((specEntries document .requests).map fun entry => (entryTopic entry, entry))

theorem registering_topicSpecs (record : Service) (document : Fields) :
    (record.registering document).topicSpecs = specsOf document := rfl

theorem entries_specsOf (document : Fields) :
    (specsOf document).entries =
      Entries.mapValues (fun entry => topicSpec entry (schemaCatalogue document))
        (storedEntries document).entries := by
  rw [storedEntries, ← entries_ofEntries_mapValues, specsOf, Entries.mapValues, List.map_map]
  rfl

variable (ρ : Str → Str)

theorem specEntries_renameDocument (document : Fields) :
    specEntries (renameDocument ρ document) .requests =
      (specEntries document .requests).map (renameEntry ρ) := by
  have hmember : Json.getField (renameDocument ρ document) Member.requests.key =
      onItems (onObject (renameEntry ρ)) (Json.getField document Member.requests.key) :=
    (getField_rewriteFields_of_neg (by decide) _ _).trans
      (getField_rewriteFields_of_pos rfl (by decide) document)
  unfold specEntries
  rw [hmember]
  cases Json.getField document Member.requests.key with
  | arr items =>
      simp only [onItems, List.filterMap_map, List.map_filterMap]
      apply List.filterMap_congr
      intro raw _
      cases raw with
      | obj entry =>
          simp only [Function.comp, onObject, entryTopic_renameEntry, getField_topic_renameEntry]
          split <;> rfl
      | _ => rfl
  | _ => rfl

theorem entries_specsOf_renameDocument (document : Fields) :
    (specsOf (renameDocument ρ document)).entries =
      Entries.mapValues
        (fun entry => topicSpec (renameEntry ρ entry) (renameCatalogue ρ (schemaCatalogue document)))
        (storedEntries document).entries := by
  have hentries : (specEntries (renameDocument ρ document) .requests).map
        (fun entry => (entryTopic entry, topicSpec entry (schemaCatalogue (renameDocument ρ document)))) =
      Entries.mapValues
        (fun entry => topicSpec (renameEntry ρ entry) (renameCatalogue ρ (schemaCatalogue document)))
        ((specEntries document .requests).map fun entry => (entryTopic entry, entry)) := by
    rw [specEntries_renameDocument, schemaCatalogue_renameDocument, Entries.mapValues, List.map_map, List.map_map]
    apply List.map_congr_left
    intro entry _
    simp only [Function.comp, entryTopic_renameEntry]
  rw [storedEntries, ← entries_ofEntries_mapValues, ← hentries, specsOf]

-- Two specs of one version are equal when both their schemas are.
theorem topicSpec_eq_iff {entry entry' schemas schemas' : Fields}
    (hversion : Json.getField entry' "version" = Json.getField entry "version") :
    topicSpec entry' schemas' = topicSpec entry schemas ↔
      ∀ key ∈ ["request", "response"].map Str.ofString,
        resolveSchema (Json.getField entry' key) schemas' = resolveSchema (Json.getField entry key) schemas := by
  obtain ⟨request, hrequest⟩ := resolveSchema_obj (Json.getField entry "request") schemas
  obtain ⟨request', hrequest'⟩ := resolveSchema_obj (Json.getField entry' "request") schemas'
  obtain ⟨response, hresponse⟩ := resolveSchema_obj (Json.getField entry "response") schemas
  obtain ⟨response', hresponse'⟩ := resolveSchema_obj (Json.getField entry' "response") schemas'
  simp only [List.map_cons, List.map_nil, List.mem_cons, List.not_mem_nil, or_false, forall_eq_or_imp, forall_eq,
    hrequest, hrequest', hresponse, hresponse', Json.obj.injEq]
  simp only [topicSpec, hversion, hrequest, hrequest', hresponse, hresponse', List.append_assoc,
    List.append_cancel_left_eq]
  cases request <;> cases request' <;> cases response <;> cases response' <;> simp [Json.truthy]

variable {ρ}

-- No mapping target in a schema of a stored entry, or in a component reached
-- from it, is renamed.
def MappingsKept (ρ : Str → Str) (document : Fields) : Prop :=
  ∀ entry ∈ (storedEntries document).values, ∀ key ∈ ["request", "response"].map Str.ofString,
    ∀ fields, Json.getField entry key = .obj fields →
      ∀ names last, Reaches (schemaCatalogue document) (Json.getField entry key) names last → KeepsTargets ρ last

theorem specsOf_renameDocument_iff (hρ : Function.Injective ρ) (document : Fields) :
    specsOf (renameDocument ρ document) = specsOf document ↔ MappingsKept ρ document := by
  have hschema (entry : Fields) {key : Str} (hkey : key ∈ ["request", "response"].map Str.ofString) :
      Json.getField (renameEntry ρ entry) key = renameSchema ρ (Json.getField entry key) := by
    refine getField_rewriteFields_of_pos rfl ?_ entry
    simp only [List.map_cons, List.map_nil, List.mem_cons, List.not_mem_nil, or_false] at hkey
    rcases hkey with rfl | rfl <;> decide
  have hversion (entry : Fields) :
      Json.getField (renameEntry ρ entry) "version" = Json.getField entry "version" :=
    getField_rewriteFields_of_neg (by decide) _ entry
  have hentry (entry : Fields) :
      topicSpec (renameEntry ρ entry) (renameCatalogue ρ (schemaCatalogue document)) =
          topicSpec entry (schemaCatalogue document) ↔
        ∀ key ∈ ["request", "response"].map Str.ofString, ∀ fields, Json.getField entry key = .obj fields →
          ∀ names last, Reaches (schemaCatalogue document) (Json.getField entry key) names last →
            KeepsTargets ρ last := by
    rw [topicSpec_eq_iff (hversion entry)]
    apply forall_congr'
    intro key
    apply forall_congr'
    intro hkey
    rw [hschema entry hkey, resolveSchema_rename_iff hρ]
  have hentries : specsOf (renameDocument ρ document) = specsOf document ↔
      (specsOf (renameDocument ρ document)).entries = (specsOf document).entries :=
    ⟨fun h => by rw [h], Dict.ext⟩
  rw [hentries, entries_specsOf_renameDocument, entries_specsOf, Entries.mapValues, Entries.mapValues,
    List.map_inj_left, MappingsKept, Dict.values, List.forall_mem_map]
  apply forall_congr'
  intro entry
  simp only [Prod.mk.injEq, true_and, hentry]

end Stored

section Registrations

variable [UnicodeData]

-- The documents a service registered in a run, the latest last.
def registrationsOf (posts : List Post) (name : Str) : List Fields :=
  (posts.filter fun post => post.registers = some name).map Post.body

theorem run_append (c : Catalog) (posts more : List Post) : c.run (posts ++ more) = (c.run posts).run more :=
  List.foldl_append

-- A record holds the contracts of the last registration and of the one before it.
structure HoldsSpecs (documents : List Fields) (record : Service) : Prop where
  current : record.topicSpecs = (documents.getLast?.map specsOf).getD Dict.empty
  previous : record.previousTopicSpecs = (documents.dropLast.getLast?.map specsOf).getD Dict.empty

theorem holdsSpecs_ingest {c : Catalog} {posts : List Post} {name : Str}
    (h : HoldsSpecs (registrationsOf posts name) (c.serviceOrNew name)) (post : Post) :
    HoldsSpecs (registrationsOf (posts ++ [post]) name) ((c.ingest post).serviceOrNew name) := by
  cases hregisters : post.registers with
  | none =>
      have hsame : registrationsOf (posts ++ [post]) name = registrationsOf posts name := by
        simp [registrationsOf, hregisters]
      have hkept := (not_registers_apply hregisters c).registration name
      rw [hsame]
      exact ⟨(congrArg Service.topicSpecs hkept).trans h.current,
        (congrArg Service.previousTopicSpecs hkept).trans h.previous⟩
  | some other =>
      rw [registers_apply hregisters, serviceOrNew_register]
      by_cases hname : other = name
      · subst hname
        have hmore : registrationsOf (posts ++ [post]) other = registrationsOf posts other ++ [post.body] := by
          simp [registrationsOf, hregisters]
        rw [if_pos rfl, hmore]
        refine ⟨?_, ?_⟩
        · rw [registering_topicSpecs, List.getLast?_concat]
          rfl
        · rw [List.dropLast_concat]
          exact h.current
      · have hsame : registrationsOf (posts ++ [post]) name = registrationsOf posts name := by
          simp [registrationsOf, hregisters, hname]
        rw [if_neg hname, hsame]
        exact h

theorem holdsSpecs_run (posts : List Post) (name : Str) :
    HoldsSpecs (registrationsOf posts name) ((Catalog.empty.run posts).serviceOrNew name) := by
  induction posts using List.reverseRecOn with
  | nil => exact ⟨rfl, rfl⟩
  | append_singleton posts post ih =>
      rw [run_append]
      exact holdsSpecs_ingest ih post

theorem snapshotServices_run (posts : List Post) :
    (Catalog.empty.run posts).snapshotServices = (Catalog.empty.run posts).services :=
  snapshotServices_eq (name_run (fun _ => rfl) posts)

-- What the projection reads of a service that never registered is nothing.
theorem specOf_run (posts : List Post) (topic name : Str) :
    specOf (Catalog.empty.run posts).snapshotServices topic name =
      ((registrationsOf posts name).getLast?.map specsOf |>.getD Dict.empty).get? topic := by
  rw [← (holdsSpecs_run posts name).current, specOf, snapshotServices_run, Catalog.serviceOrNew]
  cases (Catalog.empty.run posts).services.get? name <;> rfl

theorem previousSpecOf_run (posts : List Post) (topic name : Str) :
    previousSpecOf (Catalog.empty.run posts).snapshotServices topic name =
      ((registrationsOf posts name).dropLast.getLast?.map specsOf |>.getD Dict.empty).get? topic := by
  rw [← (holdsSpecs_run posts name).previous, previousSpecOf, snapshotServices_run, Catalog.serviceOrNew]
  cases (Catalog.empty.run posts).services.get? name <;> rfl

theorem wellFormed_specsOf {document : Fields} (h : WellFormedObject document) {topic : Str} {spec : Fields}
    (hspec : (specsOf document).get? topic = some spec) : WellFormedObject spec := by
  have hmem := (Dict.mem_entries_iff _ _ _).mpr hspec
  rcases Entries.mem_update hmem with hnil | hmem
  · cases hnil
  · obtain ⟨entry, hentry, heq⟩ := List.mem_map.mp hmem
    cases heq
    exact wellFormed_topicSpec (wellFormed_specEntries h .requests entry hentry) (wellFormed_schemaCatalogue h)

end Registrations

section Unseen

-- Specs that are all one spec do not mismatch.
theorem schemaMismatch_of_eq {spec : Fields} (h : WellFormedObject spec) {present : List Fields}
    (hpresent : ∀ other ∈ present, other = spec) : schemaMismatch present = false := by
  rw [schemaMismatch, List.any_eq_false]
  intro other hother
  have hmem := List.mem_of_mem_drop hother
  have hhead : present.head?.getD [] = spec := by
    cases present with
    | nil => cases hmem
    | cons first rest => exact hpresent first List.mem_cons_self
  rw [hpresent other hmem, hhead, Json.same_refl h]
  simp

variable [UnicodeData]

-- The document as another service registers it.
def withService (name : Str) (document : Fields) : Fields := Entries.set ("service" : Str) (.str name) document

-- A renaming the mesh does not see: the contracts it stores stay the same, so
-- registering the renamed document after the document changes no schema, and a
-- service with the one and a service with the other do not disagree.
structure RenamingUnseen (ρ : Str → Str) (document : Fields) : Prop where
  contracts : specsOf (renameDocument ρ document) = specsOf document
  unchanged : ∀ (posts : List Post) (name : Str) (before : List Fields),
    registrationsOf posts name = before ++ [document, renameDocument ρ document] →
      ∀ topic, schemaChanged (Catalog.empty.run posts).snapshotServices topic name = false
  matched : ∀ (posts : List Post) (first second : Str),
    (registrationsOf posts first).getLast? = some document →
      (registrationsOf posts second).getLast? = some (withService second (renameDocument ρ document)) →
        ∀ (topic : Str) (consumers : List Str), (∀ name ∈ consumers, name = first ∨ name = second) →
          schemaMismatch (presentSpecs (Catalog.empty.run posts).snapshotServices topic consumers) = false

theorem specsOf_withService (name : Str) (document : Fields) :
    specsOf (withService name document) = specsOf document := by
  have hfield (key : Str) (hkey : ("service" : Str) ≠ key) :
      Json.getField (withService name document) key = Json.getField document key := by
    rw [Json.getField, withService, Entries.get?_set, if_neg hkey]
    rfl
  have hentries : specEntries (withService name document) .requests = specEntries document .requests := by
    unfold specEntries
    rw [hfield Member.requests.key (by decide)]
  have hcatalogue : schemaCatalogue (withService name document) = schemaCatalogue document := by
    unfold schemaCatalogue
    rw [hfield "components" (by decide)]
  rw [specsOf, specsOf, hentries, hcatalogue]

theorem unchanged_of_contracts {ρ : Str → Str} {document : Fields} (hdocument : WellFormedObject document)
    (hcontracts : specsOf (renameDocument ρ document) = specsOf document) {posts : List Post} {name : Str}
    {before : List Fields} (h : registrationsOf posts name = before ++ [document, renameDocument ρ document])
    (topic : Str) : schemaChanged (Catalog.empty.run posts).snapshotServices topic name = false := by
  have hlast : (registrationsOf posts name).getLast? = some (renameDocument ρ document) := by
    rw [h]
    simp
  have hprevious : (registrationsOf posts name).dropLast.getLast? = some document := by
    rw [h]
    simp
  rw [schemaChanged, specOf_run, previousSpecOf_run, hlast, hprevious, Option.map_some, Option.map_some,
    Option.getD_some, Option.getD_some, hcontracts]
  cases hspec : (specsOf document).get? topic with
  | none => rfl
  | some spec =>
      simp only [Bool.not_eq_false']
      exact Json.same_refl (wellFormed_specsOf hdocument hspec)

theorem matched_of_contracts {ρ : Str → Str} {document : Fields} (hdocument : WellFormedObject document)
    (hcontracts : specsOf (renameDocument ρ document) = specsOf document) {posts : List Post}
    {first second : Str} (hfirst : (registrationsOf posts first).getLast? = some document)
    (hsecond : (registrationsOf posts second).getLast? = some (withService second (renameDocument ρ document)))
    {topic : Str} {consumers : List Str} (h : ∀ name ∈ consumers, name = first ∨ name = second) :
    schemaMismatch (presentSpecs (Catalog.empty.run posts).snapshotServices topic consumers) = false := by
  have hspec : ∀ name ∈ consumers,
      specOf (Catalog.empty.run posts).snapshotServices topic name = (specsOf document).get? topic := by
    intro name hname
    rw [specOf_run]
    rcases h name hname with rfl | rfl
    · rw [hfirst]
      rfl
    · rw [hsecond, Option.map_some, Option.getD_some, specsOf_withService, hcontracts]
  have hpresent : ∀ other ∈ presentSpecs (Catalog.empty.run posts).snapshotServices topic consumers,
      (specsOf document).get? topic = some other := by
    intro other hother
    obtain ⟨name, hname, hget⟩ := List.mem_filterMap.mp (List.mem_filter.mp hother).1
    rw [← hspec name hname, hget]
  cases hstored : (specsOf document).get? topic with
  | none =>
      apply schemaMismatch_of_eq Json.wellFormedObject_nil
      intro other hother
      rw [hstored] at hpresent
      cases hpresent other hother
  | some spec =>
      apply schemaMismatch_of_eq (wellFormed_specsOf hdocument hstored)
      intro other hother
      have hget := hpresent other hother
      rw [hstored] at hget
      exact (Option.some.inj hget).symm

-- The mesh sees a renaming exactly where a mapping target keeps a component's name.
theorem renamingUnseen_iff {ρ : Str → Str} (hρ : Function.Injective ρ) {document : Fields}
    (hdocument : Json.WellFormedObject document) : RenamingUnseen ρ document ↔ MappingsKept ρ document := by
  rw [← specsOf_renameDocument_iff hρ]
  constructor
  · intro h
    exact h.contracts
  · intro h
    exact ⟨h, fun _ _ _ hposts topic => unchanged_of_contracts hdocument h hposts topic,
      fun _ _ _ hfirst hsecond _ _ hconsumers => matched_of_contracts hdocument h hfirst hsecond hconsumers⟩

end Unseen

section Example

def componentRef (name : Str) : Json := .obj [field "$ref" (.str (schemaRefPrefix ++ name))]

-- A service that takes a pet, which is a dog, tagged or not.
def petDocument (tag : Fields) : Fields :=
  [field "service" (.str "pets"),
    field "requests" (.arr [.obj [field "topic" (.str "pet:adopt"), field "request" (componentRef "Pet")]]),
    field "components" (.obj [field "schemas" (.obj [
      field "Pet" (.obj ([field "oneOf" (.arr [componentRef "Dog"])] ++ tag)),
      field "Dog" (.obj [field "type" (.str "object")])])])]

def petTag : Fields :=
  [field "discriminator" (.obj [field "propertyName" (.str "kind"),
    field "mapping" (.obj [field "dog" (.str (schemaRefPrefix ++ ("Dog" : Str)))])])]

def dogToHound : Str → Str := Equiv.swap ("Dog" : Str) "Hound"

theorem joined_schemaRef (name : String) : Str.Joined (schemaRefPrefix ++ (name : Str)) :=
  (Str.encodable_append.mpr ⟨Str.encodable_ofString _, Str.encodable_ofString name⟩).joined

theorem renamingUnseen_untagged :
    letI := UnicodeData.ascii
    RenamingUnseen dogToHound (petDocument []) ↔ MappingsKept dogToHound (petDocument []) := by
  let _ := UnicodeData.ascii
  refine renamingUnseen_iff (Equiv.injective _) ?_
  simp [petDocument, componentRef, field, WellFormedObject, WellFormed, WellFormedFields, WellFormedItems,
    Str.joined_ofString, joined_schemaRef]

theorem not_renamingUnseen_tagged :
    letI := UnicodeData.ascii
    WellFormedObject (petDocument petTag) ∧ Function.Injective dogToHound ∧
      ¬RenamingUnseen dogToHound (petDocument petTag) := by
  let _ := UnicodeData.ascii
  have hseen : specsOf (renameDocument dogToHound (petDocument petTag)) ≠ specsOf (petDocument petTag) := by
    decide +kernel
  refine ⟨?_, Equiv.injective _, fun h => hseen h.contracts⟩
  simp [petDocument, petTag, componentRef, field, WellFormedObject, WellFormed, WellFormedFields, WellFormedItems,
    Str.joined_ofString, joined_schemaRef]

end Example

end Benzene.Mesh
