import Benzene.Contract.Alike
import Benzene.Data.JsonSchema

namespace Benzene.Contract

open Benzene.Data Benzene.Data.JsonSchema

section Resolving

-- The component that a reference names.
def resolveIn (catalogue : Fields) (ref : Str) : Option Fields :=
  match (Str.stripPrefix? schemaRefPrefix ref).bind fun name => Entries.get? name catalogue with
  | some (.obj fields) => some fields
  | _ => none

theorem resolveIn_of_get? {catalogue : Fields} {name : Str} {fields : Fields}
    (h : Entries.get? name catalogue = some (.obj fields)) :
    resolveIn catalogue (schemaRefPrefix ++ name) = some fields := by
  unfold resolveIn
  rw [Str.stripPrefix?_eq_some.mpr rfl, Option.bind_some, h]

theorem resolveIn_foreign {catalogue : Fields} {ref : Str} (h : Str.stripPrefix? schemaRefPrefix ref = none) :
    resolveIn catalogue ref = none := by
  unfold resolveIn
  rw [h]
  rfl

theorem get?_ref_of_refName {schema : Fields} {name : Str} (h : refName schema = some name) :
    Entries.get? ("$ref" : Str) schema = some (.str (schemaRefPrefix ++ name)) := by
  unfold refName Json.getField at h
  cases hget : Entries.get? ("$ref" : Str) schema with
  | none =>
      rw [hget] at h
      cases h
  | some value =>
      rw [hget] at h
      cases value with
      | str ref => rw [Str.stripPrefix?_eq_some.mp h]
      | null | bool | int | float | arr | obj => cases h

theorem stripPrefix?_of_refName {schema : Fields} (h : refName schema = none) {ref : Str}
    (href : Entries.get? ("$ref" : Str) schema = some (.str ref)) : Str.stripPrefix? schemaRefPrefix ref = none := by
  unfold refName Json.getField at h
  rw [href] at h
  exact h

end Resolving

section Keywords

variable [UnicodeData] {expand : Str → Except PyError Json} {expanding : List Str} {schema : Fields} {key : Str}

-- What the keywords of a schema come to.
def ReadsTo (expand : Str → Except PyError Json) (expanding : List Str) (schema out : Fields) : Prop :=
  (Json.obj schema).Distinct ∧ Shape.unfoldMembers expand expanding (readKeywords schema) = .ok out

variable {out : Fields}

theorem readKeyword_plainShape (ha : annotates key = false) (hp : position key = .plain) (value : Json) :
    readKeyword key value = plainShape key value := by
  rw [readKeyword_stays, if_pos hp]
  rw [not_or, Bool.not_eq_true]
  exact ⟨ha, fun heq => position_properties hp (congrArg Prod.fst heq)⟩

theorem ReadsTo.get? (h : ReadsTo expand expanding schema out) (key : Str) :
    (Entries.get? key out).map .ok =
      ((Entries.get? key schema).bind (readKeyword key)).map (Shape.unfold expand expanding) := by
  rw [← get?_readKeywords (Json.distinct_obj.mp h.1).1]
  exact Shape.get?_unfoldMembers h.2 key

theorem ReadsTo.of_keyword (h : ReadsTo expand expanding schema out) {value : Json} {shape : Shape}
    (hget : Entries.get? key schema = some value) (hshape : readKeyword key value = some shape) :
    ∃ unfolded, shape.unfold expand expanding = .ok unfolded ∧ Entries.get? key out = some unfolded := by
  have hkey := h.get? key
  rw [hget, Option.bind_some, hshape] at hkey
  obtain ⟨unfolded, hfound, heq⟩ := Option.map_eq_some_iff.mp hkey
  exact ⟨unfolded, heq.symm, hfound⟩

theorem ReadsTo.keyword (h : ReadsTo expand expanding schema out) {unfolded : Json}
    (hget : Entries.get? key out = some unfolded) :
    ∃ value shape, Entries.get? key schema = some value ∧ readKeyword key value = some shape ∧
      shape.unfold expand expanding = .ok unfolded := by
  have hkey := h.get? key
  rw [hget] at hkey
  obtain ⟨shape, hshape, heq⟩ := Option.map_eq_some_iff.mp hkey.symm
  obtain ⟨value, hvalue, hread⟩ := Option.bind_eq_some_iff.mp hshape
  exact ⟨value, shape, hvalue, hread, heq⟩

theorem ReadsTo.get?_stays (h : ReadsTo expand expanding schema out) (hkey : Stays key) :
    Entries.get? key out = Entries.get? key schema := by
  have hread : ∀ value, readKeyword key value = some (.value value) := by
    intro value
    rw [readKeyword_plainShape hkey.1 hkey.2.1, plainShape, plainKeyword_stays hkey]
    rfl
  have hfound := h.get? key
  cases hget : Entries.get? key schema with
  | none =>
      rw [hget] at hfound
      exact Option.map_eq_none_iff.mp hfound
  | some value =>
      rw [hget, Option.bind_some, hread] at hfound
      obtain ⟨unfolded, hfound, heq⟩ := Option.map_eq_some_iff.mp hfound
      cases heq
      exact hfound

end Keywords

section Values

-- A schema that refers to nothing more.
def unresolved : Str → Option Fields := fun _ => none

def SameValues (resolve : Str → Option Fields) (schema out : Fields) : Prop :=
  ∀ value, Accepts resolve schema value ↔ Accepts unresolved out value

variable [UnicodeData]

-- A reference that is expanded, and to a schema of the same values.
structure Follows (resolve : Str → Option Fields) (expand : Str → Except PyError Json) (expanding : List Str)
    (name : Str) : Prop where
  fresh : name ∉ expanding
  target : ∃ target, resolve (schemaRefPrefix ++ name) = some target ∧
    ∀ expanded, expand name = .ok expanded → ∃ out, expanded = .obj out ∧ SameValues resolve target out

-- What a schema comes to has its values, if that is so of its references.
def KeepsValues (resolve : Str → Option Fields) (expand : Str → Except PyError Json) (expanding : List Str)
    (schema : Fields) : Prop :=
  (Json.obj schema).Distinct → (∀ name ∈ (read .schema (.obj schema)).refs, Follows resolve expand expanding name) →
    ∀ unfolded, (read .schema (.obj schema)).unfold expand expanding = .ok unfolded →
      ∃ out, unfolded = .obj out ∧ SameValues resolve schema out

variable {resolve : Str → Option Fields} {expand : Str → Except PyError Json} {expanding : List Str}
  {schema out : Fields} {key : Str}

theorem read_of_unfold {value : Json} {members : Fields}
    (h : (read .schema value).unfold expand expanding = .ok (.obj members)) : ∃ fields, value = .obj fields := by
  cases value with
  | obj fields => exact ⟨fields, rfl⟩
  | arr | null | bool | int | float | str => cases h

-- The names that a keyword refers to are among those of the schema.
theorem ReadsTo.refs (h : ReadsTo expand expanding schema out) {value : Json} {shape : Shape}
    (hget : Entries.get? key schema = some value) (hshape : readKeyword key value = some shape) {name : Str}
    (hname : name ∈ shape.refs) : name ∈ Shape.refsMembers (readKeywords schema) := by
  have hkey := get?_readKeywords (Json.distinct_obj.mp h.1).1 key
  rw [hget, Option.bind_some, hshape] at hkey
  exact Shape.mem_refsMembers.mpr ⟨(key, shape), Entries.mem_of_get? hkey, hname⟩

-- The keywords of a schema come to the same values, if every schema below does.
structure Unfolding (resolve : Str → Option Fields) (expand : Str → Except PyError Json) (expanding : List Str)
    (schema out : Fields) : Prop where
  unfolds : ReadsTo expand expanding schema out
  expands : ∀ name ∈ Shape.refsMembers (readKeywords schema), Follows resolve expand expanding name
  keeps : ∀ sub, sizeOf (Json.obj sub) < sizeOf (Json.obj schema) → KeepsValues resolve expand expanding sub

theorem Unfolding.item (h : Unfolding resolve expand expanding schema out) (ha : annotates key = false)
    (hp : position key = .schema) {item : Fields} (hget : Entries.get? key schema = some (.obj item)) :
    ∃ other, Entries.get? key out = some (.obj other) ∧ SameValues resolve item other := by
  have hread : readKeyword key (.obj item) = some (read .schema (.obj item)) := by
    unfold readKeyword
    have hplain : position key ≠ .plain := by
      rw [hp]
      decide
    rw [if_neg, if_neg hplain, hp]
    rw [not_or, Bool.not_eq_true]
    refine ⟨ha, fun heq => ?_⟩
    have hkey : key = "properties" := congrArg Prod.fst heq
    rw [hkey] at hp
    exact absurd hp (by decide)
  obtain ⟨unfolded, hunfold, hfound⟩ := h.unfolds.of_keyword hget hread
  obtain ⟨other, rfl, hsame⟩ := h.keeps item (sizeOf_get? hget) (Json.distinct_get? h.unfolds.1 hget)
    (fun name hname => h.expands name (h.unfolds.refs hget hread hname)) unfolded hunfold
  exact ⟨other, hfound, hsame⟩

theorem Unfolding.of_item (h : Unfolding resolve expand expanding schema out) (ha : annotates key = false)
    (hp : position key = .schema) {other : Fields} (hget : Entries.get? key out = some (.obj other)) :
    ∃ item, Entries.get? key schema = some (.obj item) ∧ SameValues resolve item other := by
  obtain ⟨value, shape, hvalue, hshape, hunfold⟩ := h.unfolds.keyword hget
  have hread : shape = read .schema value := by
    unfold readKeyword at hshape
    have hplain : position key ≠ .plain := by
      rw [hp]
      decide
    rw [if_neg hplain, hp] at hshape
    split at hshape
    · cases hshape
    · exact (Option.some.inj hshape).symm
  rw [hread] at hunfold
  obtain ⟨item, rfl⟩ := read_of_unfold hunfold
  obtain ⟨found, hfound, hsame⟩ := h.item ha hp hvalue
  rw [hget] at hfound
  cases hfound
  exact ⟨item, hvalue, hsame⟩

theorem readKeyword_properties {members : Fields} (hmembers : members ≠ []) :
    readKeyword "properties" (.obj members) = some (.properties (Entries.mapValues (read .schema) members)) := by
  rw [readKeyword_stays, if_neg (by decide), ← readMembers_eq]
  · rfl
  · rintro (hannotates | hempty)
    · exact absurd hannotates (by decide)
    · cases hempty
      exact hmembers rfl

theorem Unfolding.property (h : Unfolding resolve expand expanding schema out) {members : Fields}
    (hget : Entries.get? ("properties" : Str) schema = some (.obj members)) {name : Str} {property : Fields}
    (hproperty : Entries.get? name members = some (.obj property)) : ∃ others other,
      Entries.get? ("properties" : Str) out = some (.obj others) ∧ Entries.get? name others = some (.obj other) ∧
        SameValues resolve property other := by
  have hmembers : members ≠ [] := by
    rintro rfl
    cases hproperty
  have hread := readKeyword_properties hmembers
  obtain ⟨unfolded, hunfold, hfound⟩ := h.unfolds.of_keyword hget hread
  obtain ⟨others, hothers, hunfold⟩ := Except.bind_eq_ok.mp hunfold
  cases hunfold
  have hname := Shape.get?_unfoldMembers hothers name
  rw [Entries.get?_mapValues, hproperty] at hname
  obtain ⟨value, hvalue, hunfold⟩ := Option.map_eq_some_iff.mp hname
  obtain ⟨other, rfl, hsame⟩ := h.keeps property ((sizeOf_get? hproperty).trans (sizeOf_get? hget))
    (Json.distinct_get? (Json.distinct_get? h.unfolds.1 hget) hproperty) (fun ref href => by
      apply h.expands ref (h.unfolds.refs hget hread _)
      rw [Shape.refs, Shape.mem_refsMembers]
      exact ⟨(name, read .schema (.obj property)), List.mem_map_of_mem (Entries.mem_of_get? hproperty), href⟩)
    value hunfold.symm
  exact ⟨others, other, hfound, hvalue, hsame⟩

theorem Unfolding.of_property (h : Unfolding resolve expand expanding schema out) {others : Fields}
    (hget : Entries.get? ("properties" : Str) out = some (.obj others)) {name : Str} {other : Fields}
    (hother : Entries.get? name others = some (.obj other)) : ∃ members property,
      Entries.get? ("properties" : Str) schema = some (.obj members) ∧
        Entries.get? name members = some (.obj property) ∧ SameValues resolve property other := by
  obtain ⟨value, shape, hvalue, hshape, hunfold⟩ := h.unfolds.keyword hget
  have hread : shape = read .properties value := by
    unfold readKeyword at hshape
    split at hshape
    · cases hshape
    · exact (Option.some.inj hshape).symm
  subst hread
  have hobject : ∃ members, value = .obj members := by
    cases value with
    | obj members => exact ⟨members, rfl⟩
    | arr | null | bool | int | float | str => cases hunfold
  obtain ⟨members, rfl⟩ := hobject
  rw [read, readMembers_eq] at hunfold
  obtain ⟨unfolded, hunfolded, hunfold⟩ := Except.bind_eq_ok.mp hunfold
  cases hunfold
  have hname := Shape.get?_unfoldMembers hunfolded name
  rw [hother, Entries.get?_mapValues, Option.map_map] at hname
  obtain ⟨found, hfound, hread⟩ := Option.map_eq_some_iff.mp hname.symm
  obtain ⟨property, rfl⟩ := read_of_unfold hread
  obtain ⟨written, same, hwritten, hsame, hvalues⟩ := h.property hvalue hfound
  rw [hget] at hwritten
  cases hwritten
  rw [hother] at hsame
  cases hsame
  exact ⟨members, property, hvalue, hfound, hvalues⟩

omit [UnicodeData] in
theorem unfoldItems_forall {shapes : List Shape} {values : List Json}
    (h : Shape.unfoldItems expand expanding shapes = .ok values) :
    List.Forall₂ (fun shape value => shape.unfold expand expanding = .ok value) shapes values := by
  induction shapes generalizing values with
  | nil =>
      cases h
      exact .nil
  | cons shape rest ih =>
      obtain ⟨value, hvalue, h⟩ := Except.bind_eq_ok.mp h
      obtain ⟨others, hothers, h⟩ := Except.bind_eq_ok.mp h
      cases h
      exact .cons hvalue (ih hothers)

theorem readKeyword_allOf (branches : List Json) :
    readKeyword "allOf" (.arr branches) = some (.branches (branches.map (read .schema))) := by
  rw [← readBranches_eq]
  rfl

theorem Unfolding.branches (h : Unfolding resolve expand expanding schema out) {branches : List Json}
    (hget : Entries.get? ("allOf" : Str) schema = some (.arr branches)) : ∃ others,
      Entries.get? ("allOf" : Str) out = some (.arr others) ∧
        List.Forall₂ (fun branch other => (read .schema branch).unfold expand expanding = .ok other) branches
          others := by
  obtain ⟨unfolded, hunfold, hfound⟩ := h.unfolds.of_keyword hget (readKeyword_allOf branches)
  obtain ⟨others, hothers, hunfold⟩ := Except.bind_eq_ok.mp hunfold
  cases hunfold
  exact ⟨others, hfound, List.forall₂_map_left_iff.mp (unfoldItems_forall hothers)⟩

theorem Unfolding.branch (h : Unfolding resolve expand expanding schema out) {branches : List Json}
    (hget : Entries.get? ("allOf" : Str) schema = some (.arr branches)) {branch : Fields}
    (hbranch : .obj branch ∈ branches) {other : Json}
    (hunfold : (read .schema (.obj branch)).unfold expand expanding = .ok other) :
    ∃ members, other = .obj members ∧ SameValues resolve branch members := by
  refine h.keeps branch ((sizeOf_element hbranch).trans (sizeOf_get? hget))
    (Json.distinct_arr.mp (Json.distinct_get? h.unfolds.1 hget) _ hbranch) (fun name hname => ?_) other hunfold
  apply h.expands name (h.unfolds.refs hget (readKeyword_allOf branches) _)
  rw [Shape.refs, Shape.mem_refsItems]
  exact ⟨_, List.mem_map_of_mem hbranch, hname⟩

theorem Unfolding.of_branches (h : Unfolding resolve expand expanding schema out) {others : List Json}
    (hget : Entries.get? ("allOf" : Str) out = some (.arr others)) : ∃ branches,
      Entries.get? ("allOf" : Str) schema = some (.arr branches) ∧
        List.Forall₂ (fun branch other => (read .schema branch).unfold expand expanding = .ok other) branches
          others := by
  obtain ⟨value, shape, hvalue, hshape, hunfold⟩ := h.unfolds.keyword hget
  have hread : shape = read .branches value := (Option.some.inj hshape).symm
  subst hread
  cases value with
  | arr branches =>
      obtain ⟨written, hwritten, hall⟩ := h.branches hvalue
      rw [hget] at hwritten
      cases hwritten
      exact ⟨branches, hvalue, hall⟩
  | obj | null | bool | int | float | str => cases hunfold

theorem plainKeyword_names {names : List Json} (hnames : names ≠ []) :
    plainKeyword "required" (.arr names) = (do return some (.arr (← sortedBy utf16Key names))) := by
  simp only [plainKeyword, if_true, hnames, if_false]

-- The names of `required` stay, in an order of their own.
theorem Unfolding.required (h : Unfolding resolve expand expanding schema out) {names : List Json} {name : Str}
    (hget : Entries.get? ("required" : Str) schema = some (.arr names)) (hname : .str name ∈ names) :
    ∃ others, Entries.get? ("required" : Str) out = some (.arr others) ∧ .str name ∈ others := by
  have hread := readKeyword_plainShape (by decide : annotates "required" = false) (by decide) (.arr names)
  unfold plainShape at hread
  rw [plainKeyword_names (List.ne_nil_of_mem hname)] at hread
  cases hsorted : sortedBy utf16Key names with
  | error error =>
      rw [hsorted] at hread
      obtain ⟨unfolded, hunfold, -⟩ := h.unfolds.of_keyword hget hread
      cases hunfold
  | ok others =>
      rw [hsorted] at hread
      obtain ⟨unfolded, hunfold, hfound⟩ := h.unfolds.of_keyword hget hread
      cases hunfold
      exact ⟨others, hfound, (sortedBy_perm hsorted).mem_iff.mpr hname⟩

theorem Unfolding.of_required (h : Unfolding resolve expand expanding schema out) {others : List Json} {name : Str}
    (hget : Entries.get? ("required" : Str) out = some (.arr others)) (hname : .str name ∈ others) :
    ∃ names, Entries.get? ("required" : Str) schema = some (.arr names) ∧ .str name ∈ names := by
  obtain ⟨value, shape, hvalue, hshape, hunfold⟩ := h.unfolds.keyword hget
  rw [readKeyword_plainShape (by decide) (by decide)] at hshape
  unfold plainShape at hshape
  cases value with
  | arr names =>
      refine ⟨names, hvalue, ?_⟩
      by_cases hnames : names = []
      · subst hnames
        cases hshape
      · rw [plainKeyword_names hnames] at hshape
        cases hsorted : sortedBy utf16Key names with
        | error error =>
            rw [hsorted] at hshape
            cases hshape
            cases hunfold
        | ok sorted =>
            rw [hsorted] at hshape
            cases hshape
            cases hunfold
            exact (sortedBy_perm hsorted).mem_iff.mp hname
  | obj | null | bool | int | float | str =>
      cases hshape
      cases hunfold

omit [UnicodeData] in
theorem stays_ref : Stays "$ref" := ⟨by decide, by decide, by decide, by decide⟩

omit [UnicodeData] in
theorem stays_type : Stays "type" := ⟨by decide, by decide, by decide, by decide⟩

omit [UnicodeData] in
theorem stays_nullable : Stays "nullable" := ⟨by decide, by decide, by decide, by decide⟩

omit [UnicodeData] in
theorem stays_enum : Stays "enum" := ⟨by decide, by decide, by decide, by decide⟩

-- Where a schema refers to nothing itself, the values of its keywords are its own.
theorem Unfolding.sameValues (h : Unfolding resolve expand expanding schema out)
    (hnone : Entries.get? ("$ref" : Str) schema = none) : SameValues resolve schema out := by
  have href := h.unfolds.get?_stays stays_ref
  have htype := h.unfolds.get?_stays stays_type
  have hnullable := h.unfolds.get?_stays stays_nullable
  have henum := h.unfolds.get?_stays stays_enum
  rw [hnone] at href
  intro value
  constructor
  · refine Asks.accepts ⟨fun _ => href, fun hget => hnullable.trans hget, ?_, ?_, ?_, ?_, ?_, ?_, ?_⟩ hnone
    · intro types htypes
      exact ⟨types, htype.symm.trans htypes, rfl⟩
    · intro values hvalues
      exact ⟨values, henum.symm.trans hvalues, rfl⟩
    · intro item hitem
      obtain ⟨other, hother, hsame⟩ := h.of_item (by decide) (by decide) hitem
      exact ⟨other, hother, fun value => (hsame value).mp⟩
    · intro additional hadditional
      obtain ⟨other, hother, hsame⟩ := h.of_item (by decide) (by decide) hadditional
      exact ⟨other, hother, fun value => (hsame value).mp⟩
    · intro properties name property hproperties hproperty
      obtain ⟨members, other, hmembers, hother, hsame⟩ := h.of_property hproperties hproperty
      exact ⟨members, other, hmembers, hother, fun value => (hsame value).mp⟩
    · intro required name hrequired hname
      exact h.of_required hrequired hname
    · intro branches branch hbranches hbranch
      obtain ⟨others, hothers, hall⟩ := h.of_branches hbranches
      obtain ⟨other, hother, hunfold⟩ := exists_of_mem_right hall hbranch
      obtain ⟨fields, rfl⟩ := read_of_unfold hunfold
      obtain ⟨members, hmembers, hsame⟩ := h.branch hothers hother hunfold
      cases hmembers
      exact ⟨others, fields, hothers, hother, fun value => (hsame value).mp⟩
  · refine Asks.accepts ⟨fun _ => hnone, fun hget => hnullable.symm.trans hget, ?_, ?_, ?_, ?_, ?_, ?_, ?_⟩ href
    · intro types htypes
      exact ⟨types, htype.trans htypes, rfl⟩
    · intro values hvalues
      exact ⟨values, henum.trans hvalues, rfl⟩
    · intro item hitem
      obtain ⟨other, hother, hsame⟩ := h.item (by decide) (by decide) hitem
      exact ⟨other, hother, fun value => (hsame value).mpr⟩
    · intro additional hadditional
      obtain ⟨other, hother, hsame⟩ := h.item (by decide) (by decide) hadditional
      exact ⟨other, hother, fun value => (hsame value).mpr⟩
    · intro properties name property hproperties hproperty
      obtain ⟨others, other, hothers, hother, hsame⟩ := h.property hproperties hproperty
      exact ⟨others, other, hothers, hother, fun value => (hsame value).mpr⟩
    · intro required name hrequired hname
      exact h.required hrequired hname
    · intro branches branch hbranches hbranch
      obtain ⟨others, hothers, hall⟩ := h.branches hbranches
      obtain ⟨other, hother, hunfold⟩ := exists_of_mem_left hall hbranch
      obtain ⟨members, rfl, hsame⟩ := h.branch hbranches hbranch hunfold
      exact ⟨others, members, hothers, hother, fun value => (hsame value).mpr⟩

-- A schema with a reference to something else than a component has no values.
theorem ReadsTo.sameValues_foreign (h : ReadsTo expand expanding schema out)
    (hforeign : ∀ ref, Str.stripPrefix? schemaRefPrefix ref = none → resolve ref = none) (hname : refName schema = none)
    {found : Json} (hget : Entries.get? ("$ref" : Str) schema = some found) : SameValues resolve schema out := by
  have href := h.get?_stays stays_ref
  rw [hget] at href
  intro value
  apply iff_of_false
  · intro haccepts
    cases haccepts with
    | reference hsome htarget =>
        rw [hforeign _ (stripPrefix?_of_refName hname hsome)] at htarget
        cases htarget
    | null hnone => rw [hget] at hnone; cases hnone
    | keywords hnone => rw [hget] at hnone; cases hnone
  · intro haccepts
    cases haccepts with
    | reference _ htarget => cases htarget
    | null hnone => rw [href] at hnone; cases hnone
    | keywords hnone => rw [href] at hnone; cases hnone

-- A nullable wrapper refers to what it wraps.
theorem mem_refs_of_wraps (hdistinct : (Json.obj schema).Distinct) {name : Str}
    (h : wraps schema (readKeywords schema) = some name) : name ∈ Shape.refsMembers (readKeywords schema) := by
  obtain ⟨hname, -⟩ := Option.filter_eq_some_iff.mp h
  unfold wrappedName Json.getField at hname
  cases hget : Entries.get? ("allOf" : Str) schema with
  | none =>
      rw [hget] at hname
      cases hname
  | some value =>
      rw [hget] at hname
      match value, hname with
      | .arr [.obj member], hname =>
          have hkey := get?_readKeywords (Json.distinct_obj.mp hdistinct).1 "allOf"
          rw [hget, Option.bind_some, readKeyword_allOf] at hkey
          apply Shape.mem_refsMembers.mpr
          refine ⟨_, Entries.mem_of_get? hkey, ?_⟩
          change refName member = some name at hname
          simp [Shape.refs, Shape.refsItems, read, hname]

-- Following references that are not cut keeps a schema's values. The induction is on the schema.
theorem keepsValues (hforeign : ∀ ref, Str.stripPrefix? schemaRefPrefix ref = none → resolve ref = none)
    (schema : Fields) : KeepsValues resolve expand expanding schema := by
  intro hdistinct hrefs unfolded hunfold
  cases hname : refName schema with
  | some name =>
      simp only [read, hname, Shape.refs, List.mem_singleton, forall_eq] at hrefs hunfold
      obtain ⟨hfresh, target, htarget, hexpand⟩ := hrefs
      rw [Shape.unfold, if_neg hfresh] at hunfold
      obtain ⟨out, rfl, hsame⟩ := hexpand unfolded hunfold
      refine ⟨out, rfl, fun value => ?_⟩
      rw [accepts_ref_iff (get?_ref_of_refName hname), ← hsame value, htarget]
      simp
  | none =>
      simp only [read, hname, Shape.refs] at hrefs hunfold
      obtain ⟨out, hout, hunfold⟩ := Except.bind_eq_ok.mp hunfold
      have hopen : (wraps schema (readKeywords schema)).any (· ∈ expanding) = false := by
        cases hwraps : wraps schema (readKeywords schema) with
        | none => rfl
        | some name => simpa using (hrefs name (mem_refs_of_wraps hdistinct hwraps)).fresh
      rw [hopen] at hunfold
      cases hunfold
      refine ⟨out, rfl, ?_⟩
      cases hget : Entries.get? ("$ref" : Str) schema with
      | some found => exact ReadsTo.sameValues_foreign ⟨hdistinct, hout⟩ hforeign hname hget
      | none =>
          refine Unfolding.sameValues ⟨⟨hdistinct, hout⟩, hrefs, fun sub hsub => ?_⟩ hget
          exact keepsValues hforeign sub
termination_by sizeOf (Json.obj schema)
decreasing_by simp only [Json.obj.sizeOf_spec] at hsub ⊢; omega

end Values

section Uncut

variable [UnicodeData] {catalogue : Fields}

-- References are there, and lead to no name that is being expanded.
inductive Uncut (catalogue : Fields) : List Str → Fields → Prop
  | intro {expanding : List Str} {schema : Fields}
      (hfresh : ∀ name ∈ (read .schema (.obj schema)).refs, name ∉ expanding)
      (hfound : ∀ name ∈ (read .schema (.obj schema)).refs, ∃ target, Entries.get? name catalogue = some (.obj target))
      (h : ∀ name ∈ (read .schema (.obj schema)).refs, ∀ target, Entries.get? name catalogue = some (.obj target) →
        Uncut catalogue (name :: expanding) target) : Uncut catalogue expanding schema

-- A schema that is normalized without a cut keeps its values.
theorem Uncut.sameValues {expanding : List Str} {schema : Fields} (h : Uncut catalogue expanding schema)
    (hcatalogue : ∀ entry ∈ catalogue, entry.2.Distinct) (hdistinct : (Json.obj schema).Distinct) {normalized : Json}
    (hnormalize : normalize catalogue expanding (.obj schema) = .ok normalized) :
    ∃ out, normalized = .obj out ∧ SameValues (resolveIn catalogue) schema out := by
  induction h generalizing normalized with
  | intro hfresh hfound _ ih =>
      rw [normalize_eq_unfold] at hnormalize
      refine keepsValues (fun ref => resolveIn_foreign) _ hdistinct (fun name hname => ?_) normalized hnormalize
      obtain ⟨target, htarget⟩ := hfound name hname
      refine ⟨hfresh name hname, target, resolveIn_of_get? htarget, fun expanded hexpanded => ?_⟩
      have hcomponent : component catalogue name = .obj target := by
        unfold component
        rw [htarget]
        rfl
      rw [hcomponent] at hexpanded
      exact ih name hname target htarget (hcatalogue _ (Entries.mem_of_get? htarget)) hexpanded

end Uncut

end Benzene.Contract
