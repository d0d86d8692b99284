import Benzene.Contract.Closure
import Benzene.Contract.Parsed

namespace Benzene.Contract

open Benzene.Data

section Expansions

variable [UnicodeData] (catalogue : Fields)

-- The references that normalizing a schema expands, each with the path it is on.
inductive Expands : List Str → Json → List Str → Str → Prop
  | here {expanding : List Str} {schema : Json} {name : Str}
      (hname : name ∈ (read .schema schema).refs) (hcut : name ∉ expanding) :
      Expands expanding schema expanding name
  | there {expanding path : List Str} {schema : Json} {middle name : Str}
      (hmiddle : middle ∈ (read .schema schema).refs) (hcut : middle ∉ expanding)
      (h : Expands (middle :: expanding) (component catalogue middle) path name) :
      Expands expanding schema path name

-- What a reference on a path expands to.
def expansion (path : List Str) (name : Str) : Except PyError Json :=
  normalize catalogue (name :: path) (component catalogue name)

variable {catalogue}

theorem normalize_eq_expansion (expanding : List Str) (schema : Json) :
    normalize catalogue expanding schema =
      (read .schema schema).unfold (expansion catalogue expanding) expanding :=
  normalize_eq_unfold expanding schema

theorem expansion_dangling {name : Str} (h : name ∉ Entries.keys catalogue) (path : List Str) :
    expansion catalogue path name = .ok (.obj []) := by
  unfold expansion
  rw [component_dangling h]
  exact normalizeWithin_open _ _

-- Nothing is left of a schema on a path: no keyword, a reference that is cut, a
-- nullable wrapper of one, or a component of which nothing is left.
inductive Blank (catalogue : Fields) : List Str → Json → Prop
  | empty {path : List Str} {schema : Json} {wraps : Option Str}
      (h : read .schema schema = .node wraps []) : Blank catalogue path schema
  | cut {path : List Str} {schema : Json} {name : Str} (h : read .schema schema = .ref name)
      (hcut : name ∈ path) : Blank catalogue path schema
  | wrapper {path : List Str} {schema : Json} {name : Str} {keywords : List (Str × Shape)}
      (h : read .schema schema = .node (some name) keywords) (hcut : name ∈ path) : Blank catalogue path schema
  | through {path : List Str} {schema : Json} {name : Str} (h : read .schema schema = .ref name)
      (hcut : name ∉ path) (hblank : Blank catalogue (name :: path) (component catalogue name)) :
      Blank catalogue path schema

end Expansions

section Empty

variable {expand : Str → Except PyError Json} {expanding : List Str}

-- Nothing is left of a schema only if nothing is left of what it refers to.
theorem unfold_empty {shape : Shape} (hs : shape.Sound)
    (h : shape.unfold expand expanding = .ok (.obj [])) :
    ∀ name ∈ shape.refs, name ∉ expanding → expand name = .ok (.obj []) := by
  intro name hname hcut
  cases shape with
  | value json => cases hname
  | failed error => cases hname
  | ref other =>
      simp only [Shape.refs, List.mem_singleton] at hname
      subst hname
      simpa only [Shape.unfold, hcut, if_false] using h
  | branches items =>
      simp only [Shape.unfold] at h
      obtain ⟨out, -, h⟩ := Except.bind_eq_ok.mp h
      cases h
  | properties members =>
      simp only [Shape.unfold] at h
      obtain ⟨out, hout, h⟩ := Except.bind_eq_ok.mp h
      cases h
      have hkeys := keys_unfoldMembers hout
      have hnil : members = [] := by simpa [Entries.keys] using hkeys
      subst hnil
      cases hname
  | node wraps keywords =>
      simp only [Shape.unfold] at h
      obtain ⟨out, hout, h⟩ := Except.bind_eq_ok.mp h
      by_cases hany : wraps.any (· ∈ expanding) = true
      · cases wraps with
        | none => cases hany
        | some wrapped =>
            have heq : name = wrapped := hs.2.2 wrapped rfl name hname
            subst heq
            exact absurd (by simpa using hany) hcut
      · rw [if_neg hany] at h
        cases h
        have hkeys := keys_unfoldMembers hout
        have hnil : keywords = [] := by simpa [Entries.keys] using hkeys
        subst hnil
        cases hname

theorem read_eq_node [UnicodeData] {schema : Json} {cut : Option Str} {keywords : List (Str × Shape)}
    (h : read .schema schema = .node cut keywords) :
    ∃ fields, schema = .obj fields ∧ cut = wraps fields (readKeywords fields) ∧ keywords = readKeywords fields := by
  cases schema with
  | obj fields =>
      rw [read] at h
      cases hr : refName fields with
      | some name =>
          rw [hr] at h
          cases h
      | none =>
          rw [hr] at h
          cases h
          exact ⟨fields, rfl, rfl, rfl⟩
  | null | bool _ | int _ | float _ | str _ | arr _ => cases h

-- A nullable wrapper whose reference is cut goes as a whole.
theorem unfold_wrapper [UnicodeData] {schema : Json} (hs : schema.Distinct) {name : Str}
    {keywords : List (Str × Shape)} (h : read .schema schema = .node (some name) keywords)
    (hcut : name ∈ expanding) : (read .schema schema).unfold expand expanding = .ok (.obj []) := by
  obtain ⟨fields, rfl, hwraps, rfl⟩ := read_eq_node h
  have hmembers := mem_wrapper (Json.distinct_obj.mp hs).1 hwraps.symm
  have hok : ∃ out, Shape.unfoldMembers expand expanding (readKeywords fields) = .ok out := by
    apply Shape.unfoldMembers_ok
    intro member hm
    rcases hmembers member hm with ⟨json, hvalue⟩ | hbranches
    · rw [hvalue]
      exact ⟨json, rfl⟩
    · rw [hbranches]
      refine ⟨.arr [.obj []], ?_⟩
      simp only [Shape.unfold, Shape.unfoldItems, if_pos hcut]
      rfl
  obtain ⟨out, hout⟩ := hok
  rw [h]
  simp only [Shape.unfold, hout, Option.any_some, hcut, decide_true, if_true]
  rfl

theorem read_schema [UnicodeData] (schema : Json) :
    (∃ json, read .schema schema = .value json ∧ json ≠ .obj []) ∨ (∃ name, read .schema schema = .ref name) ∨
      ∃ cut keywords, read .schema schema = .node cut keywords := by
  cases schema with
  | obj fields =>
      rw [read]
      cases refName fields with
      | some name => exact .inr (.inl ⟨name, rfl⟩)
      | none => exact .inr (.inr ⟨_, _, rfl⟩)
  | null | bool _ | int _ | float _ | str _ | arr _ => exact .inl ⟨_, rfl, by simp⟩

end Empty

section Blanks

variable {catalogue : Fields}

theorem component_distinct (hdistinct : ∀ entry ∈ catalogue, entry.2.Distinct) (name : Str) :
    (component catalogue name).Distinct := by
  unfold component
  cases hget : Entries.get? name catalogue with
  | none => exact Json.distinct_obj.mpr ⟨List.nodup_nil, by simp⟩
  | some schema => exact hdistinct (name, schema) (Entries.mem_of_get? hget)

variable [UnicodeData]

theorem normalize_blank (hdistinct : ∀ entry ∈ catalogue, entry.2.Distinct) {path : List Str} {schema : Json}
    (hs : schema.Distinct) (h : Blank catalogue path schema) : normalize catalogue path schema = .ok (.obj []) := by
  induction h with
  | @empty path schema wraps h =>
      rw [normalize_eq_expansion, h]
      simp only [Shape.unfold, Shape.unfoldMembers]
      cases wraps.any (· ∈ path) <;> rfl
  | cut h hcut => rw [normalize_eq_expansion, h, Shape.unfold, if_pos hcut]
  | wrapper h hcut =>
      rw [normalize_eq_expansion]
      exact unfold_wrapper hs h hcut
  | @through path schema name h hcut _ ih =>
      rw [normalize_eq_expansion, h, Shape.unfold, if_neg hcut]
      exact ih (component_distinct hdistinct name)

theorem blank_of_normalize {path : List Str} {schema : Json}
    (h : normalize catalogue path schema = .ok (.obj [])) : Blank catalogue path schema := by
  induction path using expansion_induct catalogue generalizing schema with
  | step path ih =>
      rw [normalize_eq_expansion] at h
      rcases read_schema schema with ⟨json, hread, hne⟩ | ⟨name, hread⟩ | ⟨cut, keywords, hread⟩
      · rw [hread] at h
        exact absurd (Except.ok.inj h) hne
      · by_cases hcut : name ∈ path
        · exact .cut hread hcut
        · rw [hread, Shape.unfold, if_neg hcut] at h
          apply Blank.through hread hcut
          by_cases hkey : name ∈ Entries.keys catalogue
          · exact ih name hkey hcut h
          · rw [component_dangling hkey]
            exact .empty rfl
      · rw [hread] at h
        simp only [Shape.unfold] at h
        obtain ⟨out, hout, h⟩ := Except.bind_eq_ok.mp h
        cases hany : cut.any (· ∈ path) with
        | true =>
            obtain ⟨name, rfl, hcut⟩ := (Option.any_eq_true _ _).mp hany
            exact .wrapper hread (by simpa using hcut)
        | false =>
            rw [hany] at h
            cases h
            have hkeys := keys_unfoldMembers hout
            have hnil : keywords = [] := by simpa [Entries.keys] using hkeys
            subst hnil
            exact .empty hread

theorem expansion_blank_iff (hdistinct : ∀ entry ∈ catalogue, entry.2.Distinct) (path : List Str) (name : Str) :
    expansion catalogue path name = .ok (.obj []) ↔ Blank catalogue (name :: path) (component catalogue name) :=
  ⟨blank_of_normalize, normalize_blank hdistinct (component_distinct hdistinct name)⟩

end Blanks

section Narrowing

variable {catalogue : Fields} {roots : List Json}

variable [UnicodeData]

-- Every reference that is expanded is reached by the walk, or stands for nothing.
def Kept (catalogue : Fields) (roots : List Json) (expanding : List Str) (schema : Json) : Prop :=
  ∀ path name, Expands catalogue expanding schema path name →
    Reaches catalogue (rootNames roots) name ∨ Blank catalogue (name :: path) (component catalogue name)

-- What a schema refers to is reached, and so is what the components that are reached refer to.
theorem kept_of_reached {schema : Json} {expanding : List Str}
    (hschema : ∀ name ∈ (read .schema schema).refs, Reaches catalogue (rootNames roots) name)
    (hbelow : ∀ middle, Reaches catalogue (rootNames roots) middle →
      ∀ name ∈ (read .schema (component catalogue middle)).refs, Reaches catalogue (rootNames roots) name) :
    Kept catalogue roots expanding schema := by
  intro path name hexpands
  left
  induction hexpands with
  | here hname _ => exact hschema _ hname
  | there hmiddle _ _ ih => exact ih (hbelow _ (hschema _ hmiddle))

theorem normalize_narrow (hdistinct : ∀ entry ∈ catalogue, entry.2.Distinct) {expanding : List Str}
    {schema : Json} (h : Kept catalogue roots expanding schema) :
    normalize (reachableSchemas catalogue roots) expanding schema = normalize catalogue expanding schema := by
  induction expanding using expansion_induct catalogue generalizing schema with
  | step expanding ih =>
      rw [normalize_eq_expansion, normalize_eq_expansion]
      apply Shape.unfold_congr
      intro name hname hcut
      by_cases hreached : Reaches catalogue (rootNames roots) name
      · unfold expansion
        rw [component_reachableSchemas hreached]
        apply ih name hreached.key hcut
        intro path other hother
        exact h path other (.there hname hcut hother)
      · rw [expansion_dangling (by rwa [keys_reachableSchemas])]
        have hblank := (h expanding name (.here hname hcut)).resolve_left hreached
        exact ((expansion_blank_iff hdistinct expanding name).mpr hblank).symm

-- Narrowing agrees along every reference, or nothing is left of its component.
theorem agree_expansion {expanding : List Str} {schema : Json} {name : Str} (hs : schema.Distinct)
    (h : Agree (normalize (reachableSchemas catalogue roots) expanding schema)
        (normalize catalogue expanding schema) ∨ normalize catalogue expanding schema = .ok (.obj []))
    (hname : name ∈ (read .schema schema).refs) (hcut : name ∉ expanding) :
    Reaches catalogue (rootNames roots) name ∧
        Agree (expansion (reachableSchemas catalogue roots) expanding name) (expansion catalogue expanding name) ∨
      expansion catalogue expanding name = .ok (.obj []) := by
  have hsound := read_sound hs .schema
  rw [normalize_eq_expansion, normalize_eq_expansion] at h
  rcases h with h | h
  · have hagree := Shape.unfold_inj hsound h name hname hcut
    by_cases hreached : Reaches catalogue (rootNames roots) name
    · exact .inl ⟨hreached, hagree⟩
    · obtain ⟨v, w, hv, hw, hsame⟩ := hagree
      rw [expansion_dangling (by rwa [keys_reachableSchemas])] at hv
      cases hv
      rw [canonical_eq_empty hsame] at hw
      exact .inr hw
  · exact .inr (unfold_empty hsound h name hname hcut)

theorem kept_of_agree (hdistinct : ∀ entry ∈ catalogue, entry.2.Distinct) {expanding : List Str}
    {schema : Json} (hs : schema.Distinct)
    (h : Agree (normalize (reachableSchemas catalogue roots) expanding schema)
      (normalize catalogue expanding schema)) : Kept catalogue roots expanding schema := by
  intro path name hexpands
  replace h : _ ∨ normalize catalogue expanding schema = .ok (.obj []) := .inl h
  induction hexpands with
  | here hname hcut =>
      exact (agree_expansion hs h hname hcut).imp And.left (expansion_blank_iff hdistinct _ _).mp
  | @there expanding path schema middle name hmiddle hcut _ ih =>
      apply ih (component_distinct hdistinct middle)
      rcases agree_expansion hs h hmiddle hcut with ⟨hreached, hagree⟩ | hempty
      · unfold expansion at hagree
        rw [component_reachableSchemas hreached] at hagree
        exact .inl hagree
      · exact .inr hempty

end Narrowing

end Benzene.Contract
