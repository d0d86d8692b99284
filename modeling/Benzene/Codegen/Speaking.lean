import Benzene.Codegen.Dataclass

namespace Benzene.Codegen

open Benzene.Data
open Benzene.Core (underscore toCamel normalizeName keywordArguments foldedMembers)

section Attributes

variable [IdentifierData]

-- The attribute for a property, whatever the class.
def fieldAttribute (name : Str) : Str := Str.compiled (fieldName name)

theorem fieldName_of_no_letters {name : Str} (h : spelled name = []) : fieldName name = ensureIdentifier name := by
  have hwords : segmentWords name = [] := segmentWords_eq_nil_iff.mpr (spelled_eq_nil_iff.mp h)
  unfold fieldName
  dsimp only
  rw [if_pos hwords]

omit [IdentifierData] in
theorem segmentWords_ne_nil {name : Str} (h : spelled name ≠ []) : segmentWords name ≠ [] := by
  intro hnil
  rw [← flatMap_capitalized_segmentWords, hnil] at h
  exact h rfl

theorem fieldName_of_letters {name : Str} (h : spelled name ≠ []) :
    fieldName name = ensureIdentifier (snake (segmentWords name)) := by
  unfold fieldName
  dsimp only
  rw [if_neg (segmentWords_ne_nil h)]

theorem isName_fieldName {name : Str} (h : spelled name ≠ []) : Str.IsName (fieldName name) := by
  have hsnake := ensureIdentifier_snake (segmentWords_ne_nil h) fun _ => isWord_of_mem_segmentWords
  rw [fieldName_of_letters h]
  exact ⟨Str.isIdentifier_of_asciiName hsnake.1, hsnake.2⟩

theorem compiled_fieldName {name : Str} (h : spelled name ≠ []) : fieldAttribute name = fieldName name :=
  Str.compiled_of_ascii fun _ hc => Str.isAscii_of_isNamePart (isNamePart_fieldName h hc)

theorem isPrivate_fieldName {name : Str} (h : spelled name ≠ []) : isPrivate (fieldName name) = false := by
  obtain ⟨word, words, hwords⟩ := List.exists_cons_of_ne_nil (segmentWords_ne_nil h)
  have hword : IsWord word := isWord_of_mem_segmentWords (hwords ▸ List.mem_cons_self)
  obtain ⟨c, rest, hc, hsnake, -⟩ := snake_head hword words
  have hne : (underscore == c) = false := by
    rw [beq_eq_false_iff_ne]
    exact (ne_underscore_of_small hc).symm
  -- an underscore is followed by a digit
  have hled : ∀ more, ("__" : Str).isPrefixOf (led (c :: rest) ++ more) = false := by
    intro more
    show List.isPrefixOf [underscore, underscore] _ = false
    rcases @led_cons _ c rest hc with ⟨-, heq⟩ | ⟨-, heq⟩
    · rw [heq]
      simp [List.isPrefixOf, hne]
    · rw [heq]
      simp [List.isPrefixOf, hne]
  rw [fieldName_of_letters h, hwords, hsnake, isPrivate]
  rcases ensureIdentifier_eq c rest with ⟨-, heq⟩ | ⟨-, heq⟩
  · rw [heq, ← List.append_nil (led (c :: rest)), hled]
    rfl
  · rw [heq, hled]
    rfl

-- A class's name without its underscores begins with a letter or a digit.
theorem className_dropWhile (component : Str) : ∃ c rest,
    (className component).dropWhile (fun c => c = underscore) = c :: rest ∧ Str.isAlphanumeric c = true := by
  obtain ⟨c, rest, hpascal, hall, hc⟩ := className_cases component
  have halnum := hall c List.mem_cons_self
  have hne : c ≠ underscore := by
    rintro rfl
    exact absurd halnum (by decide)
  refine ⟨c, rest, ?_, halnum⟩
  rcases hc with ⟨-, hc⟩ | ⟨-, hc⟩
  · rw [hc, hpascal]
    simp [hne]
  · rw [hc, hpascal]
    simp [hne]

variable [UnicodeData]

theorem PlainName.isName {name : Str} (h : PlainName name) : Str.IsName (fieldName name) := by
  unfold PlainName at h
  split at h
  · rename_i hletters
    rw [fieldName_of_no_letters hletters]
    exact h.1
  · rename_i hletters
    exact isName_fieldName hletters

theorem PlainName.attributeName_eq {name : Str} (h : PlainName name) (cls : Str) :
    attributeName cls (fieldName name) = fieldAttribute name := by
  have hprivate : isPrivate (fieldAttribute name) = false := by
    unfold PlainName at h
    split at h
    · rename_i hletters
      rw [fieldAttribute, fieldName_of_no_letters hletters]
      exact h.2.1
    · rename_i hletters
      rw [compiled_fieldName hletters]
      exact isPrivate_fieldName hletters
  unfold attributeName
  dsimp only
  exact if_neg (by rw [← fieldAttribute, hprivate]; exact Bool.false_ne_true)

theorem PlainName.toCamel_fieldAttribute {name : Str} (h : PlainName name) : toCamel (fieldAttribute name) = name := by
  unfold PlainName at h
  split at h
  · rename_i hletters
    rw [fieldAttribute, fieldName_of_no_letters hletters]
    exact h.2.2.1
  · rename_i hletters
    rw [compiled_fieldName hletters]
    exact (toCamel_fieldName_iff hletters).mpr h

theorem PlainName.normalizeName_fieldAttribute {name : Str} (h : PlainName name) :
    normalizeName (fieldAttribute name) = normalizeName name := by
  unfold PlainName at h
  split at h
  · rename_i hletters
    rw [fieldAttribute, fieldName_of_no_letters hletters]
    exact h.2.2.2
  · rename_i hletters
    rw [compiled_fieldName hletters]
    exact normalizeName_fieldName hletters h

omit [IdentifierData] in
-- What the compiler puts before a private name is written.
theorem toCamel_private {c : CodePoint} (hc : Str.isAlphanumeric c = true) (rest : Str) :
    spelled (toCamel (underscore :: c :: rest)) ≠ [] := by
  have hne : c ≠ underscore := by
    rintro rfl
    exact absurd hc (by decide)
  have hupper : Str.upper [c] = [Str.upperAscii c] := by
    rw [Str.upper, if_pos (by simp [Str.isAscii_of_isAlphanumeric hc])]
    rfl
  rw [Core.toCamel_eq_capitals, Core.capitals, if_pos rfl, Core.capitals, if_neg hne, if_pos rfl, hupper]
  intro h
  have hfalse := spelled_eq_nil_iff.mp h (Str.upperAscii c) (by simp)
  rw [isAlphanumeric_upperAscii hc] at hfalse
  cases hfalse

-- A property whose attribute is written under its name and read from it is plain.
theorem plainName_of_kept {component name : Str} (hname : Str.IsName (fieldName name))
    (hcamel : toCamel (attributeName (className component) (fieldName name)) = name)
    (hnormal : normalizeName (attributeName (className component) (fieldName name)) = normalizeName name) :
    PlainName name := by
  unfold PlainName
  unfold attributeName at hcamel hnormal
  dsimp only at hcamel hnormal
  split
  · rename_i hletters
    rw [fieldName_of_no_letters hletters] at hname hcamel hnormal
    cases hprivate : isPrivate (Str.compiled (ensureIdentifier name)) with
    | true =>
        rw [if_pos hprivate] at hcamel
        obtain ⟨c, rest, hdrop, hc⟩ := className_dropWhile component
        rw [hdrop] at hcamel
        have hspelled := toCamel_private hc (rest ++ Str.compiled (ensureIdentifier name))
        rw [List.cons_append, List.cons_append] at hcamel
        rw [hcamel] at hspelled
        exact absurd hletters hspelled
    | false =>
        rw [if_neg (by rw [hprivate]; exact Bool.false_ne_true)] at hcamel hnormal
        exact ⟨hname, rfl, hcamel, hnormal⟩
  · rename_i hletters
    have hcompiled : Str.compiled (fieldName name) = fieldName name := compiled_fieldName hletters
    rw [hcompiled, if_neg (by rw [isPrivate_fieldName hletters]; exact Bool.false_ne_true)] at hcamel
    exact (toCamel_fieldName_iff hletters).mp hcamel

end Attributes

section Bodies

-- What a default is, and what it is read from.
def defaultIn [IdentifierData] (own : Fields) (name : Str) : Option Json :=
  match defaultOf own name with
  | none => none
  | some default =>
      match default.factory with
      | none => some default.value
      | some factory => if factory ∈ earlier own name then none else some default.value

theorem earlier_eq {front back : Fields} {name : Str} {schema : Json}
    (h : (Entries.keys (front ++ (name, schema) :: back)).Nodup) :
    earlier (front ++ (name, schema) :: back) name = Entries.keys front ∧
      Entries.get? name (front ++ (name, schema) :: back) = some schema := by
  have hfront : name ∉ Entries.keys front := by
    intro hmem
    rw [Entries.keys, List.map_append, List.nodup_append] at h
    exact h.2.2 name hmem name List.mem_cons_self rfl
  constructor
  · have hall : ∀ property ∈ front, decide (property.1 ≠ name) = true := by
      intro property hproperty
      apply decide_eq_true
      rintro rfl
      exact hfront (List.mem_map_of_mem hproperty)
    rw [earlier, List.takeWhile_append_of_pos hall, List.takeWhile_cons_of_neg (by simp), List.append_nil]
  · rw [Entries.get?_append, (Entries.get?_eq_none_iff name front).mpr hfront, Option.none_or, Entries.get?_cons,
      if_pos rfl]

-- The names that the defaults call.
def callees : List Str := ["field", "list", "dict"]

theorem factory_mem_callees {default : Default} {factory : Str} (h : default.factory = some factory) :
    factory ∈ callees := by
  cases default with
  | list =>
      cases h
      decide
  | dict =>
      cases h
      decide
  | none | emptyText | zero | zeroFloat | false => cases h

variable [UnicodeData] [IdentifierData]

theorem callee_kept {word : Str} (h : word ∈ callees) : fieldAttribute word = word ∧ toCamel word = word := by
  simp only [callees, List.mem_cons, List.not_mem_nil, or_false] at h
  rcases h with rfl | rfl | rfl
  · exact ⟨rfl, rfl⟩
  · exact ⟨rfl, rfl⟩
  · exact ⟨rfl, rfl⟩

theorem fieldAttribute_inj {a b : Str} (ha : PlainName a) (hb : PlainName b)
    (h : fieldAttribute a = fieldAttribute b) : a = b := by
  rw [← ha.toCamel_fieldAttribute, h, hb.toCamel_fieldAttribute]

theorem callee_bound_iff {names : List Str} (hplain : ∀ name ∈ names, PlainName name) {word : Str}
    (hword : word ∈ callees) : word ∈ names.map fieldAttribute ↔ word ∈ names := by
  obtain ⟨hkept, hcamel⟩ := callee_kept hword
  constructor
  · intro h
    obtain ⟨name, hname, heq⟩ := List.mem_map.mp h
    have hsame := (hplain name hname).toCamel_fieldAttribute
    rw [heq, hcamel] at hsame
    rw [hsame]
    exact hname
  · intro h
    exact List.mem_map.mpr ⟨word, h, hkept⟩

theorem evaluate_eq_ok_iff {own front back : Fields} {name : Str} {schema : Json} {bound : List Str}
    (hown : own = front ++ (name, schema) :: back) (hnodup : (Entries.keys own).Nodup)
    (hplain : ∀ other ∈ Entries.keys own, PlainName other)
    (hbound : ∀ word, word ∈ bound ↔ word ∈ (Entries.keys front).map fieldAttribute) {value : Option Json} :
    evaluate bound (defaultFor (getTypeName schema)) = .ok value ↔
      ((defaultFor (getTypeName schema)).factory ≠ none → ("field" : Str) ∉ earlier own name) ∧
        value = defaultIn own name := by
  subst hown
  obtain ⟨hearlier, hget⟩ := earlier_eq hnodup
  have hfront : ∀ other ∈ Entries.keys front, PlainName other := by
    intro other hother
    apply hplain
    rw [Entries.keys, List.map_append]
    exact List.mem_append_left _ hother
  have hcallee : ∀ word ∈ callees, word ∈ bound ↔ word ∈ Entries.keys front :=
    fun word hword => (hbound word).trans (callee_bound_iff hfront hword)
  have hdefault : defaultOf (front ++ (name, schema) :: back) name = some (defaultFor (getTypeName schema)) := by
    rw [defaultOf, hget]
    rfl
  rw [defaultIn, hdefault, hearlier, evaluate]
  dsimp only
  cases hfactory : (defaultFor (getTypeName schema)).factory with
  | none => simp [eq_comm]
  | some factory =>
      dsimp only
      rw [if_congr (hcallee "field" (by decide)) rfl rfl,
        if_congr (hcallee factory (factory_mem_callees hfactory)) rfl rfl]
      by_cases hfield : ("field" : Str) ∈ Entries.keys front
      · simp [hfield]
      · simp [hfield, eq_comm]

-- The fields that a body of plain names makes.
def ownFields (own : Fields) : ClassFields :=
  own.map fun property => (fieldAttribute property.1, ⟨property.1, defaultIn own property.1⟩)

theorem runBody_fieldsFrom {own : Fields} (hnodup : (Entries.keys own).Nodup)
    (hplain : ∀ name ∈ Entries.keys own, PlainName name) (cls : Str) {front back : Fields} (hown : own = front ++ back)
    {bound seen : List Str} (hbound : ∀ word, word ∈ bound ↔ word ∈ (Entries.keys front).map fieldAttribute)
    (hseen : ∀ word, word ∈ seen ↔ word ∈ (Entries.keys front).map fieldName) {out : ClassFields} :
    runBody cls bound (fieldsFrom seen back) = .ok out ↔
      (∀ property ∈ back, (defaultFor (getTypeName property.2)).factory ≠ none →
        ("field" : Str) ∉ earlier own property.1) ∧
      out = back.map fun property => (fieldAttribute property.1, ⟨property.1, defaultIn own property.1⟩) := by
  induction back generalizing front bound seen out with
  | nil =>
      rw [fieldsFrom, runBody]
      simp [eq_comm]
  | cons property rest ih =>
      obtain ⟨name, schema⟩ := property
      have hname : PlainName name := hplain name (by simp [hown, Entries.keys])
      have hnew : fieldName name ∉ seen := by
        rw [hseen]
        intro hmem
        obtain ⟨other, hother, heq⟩ := List.mem_map.mp hmem
        have hplainOther : PlainName other := hplain other (by
          rw [hown, Entries.keys, List.map_append]
          exact List.mem_append_left _ hother)
        have hsame : other = name := fieldAttribute_inj hplainOther hname (congrArg Str.compiled heq)
        subst hsame
        rw [hown, Entries.keys, List.map_append, List.nodup_append] at hnodup
        exact hnodup.2.2 other hother other List.mem_cons_self rfl
      have hsnoc : own = front ++ [(name, schema)] ++ rest := by rw [hown, List.append_assoc, List.singleton_append]
      have hkeys : Entries.keys (front ++ [(name, schema)]) = Entries.keys front ++ [name] := by
        rw [Entries.keys, List.map_append]
        rfl
      have hboundRest : ∀ word, word ∈ fieldAttribute name :: bound ↔
          word ∈ (Entries.keys (front ++ [(name, schema)])).map fieldAttribute := by
        intro word
        rw [hkeys, List.map_append, List.mem_append, List.mem_cons, hbound, or_comm, List.map_singleton,
          List.mem_singleton]
      have hseenRest : ∀ word, word ∈ fieldName name :: seen ↔
          word ∈ (Entries.keys (front ++ [(name, schema)])).map fieldName := by
        intro word
        rw [hkeys, List.map_append, List.mem_append, List.mem_cons, hseen, or_comm, List.map_singleton,
          List.mem_singleton]
      rw [fieldsFrom, if_neg hnew, runBody, if_pos hname.isName, hname.attributeName_eq, Except.bind_eq_ok,
        List.forall_mem_cons, List.map_cons]
      constructor
      · rintro ⟨value, hvalue, h⟩
        obtain ⟨more, hmore, h⟩ := Except.bind_eq_ok.mp h
        cases h
        obtain ⟨hfield, rfl⟩ := (evaluate_eq_ok_iff hown hnodup hplain hbound).mp hvalue
        obtain ⟨hrest, rfl⟩ := (ih hsnoc hboundRest hseenRest).mp hmore
        exact ⟨⟨hfield, hrest⟩, rfl⟩
      · rintro ⟨⟨hfield, hrest⟩, rfl⟩
        refine ⟨_, (evaluate_eq_ok_iff hown hnodup hplain hbound).mpr ⟨hfield, rfl⟩, ?_⟩
        rw [(ih hsnoc hboundRest hseenRest).mpr ⟨hrest, rfl⟩]
        rfl

theorem runBody_eq_ok_iff {own : Fields} (hnodup : (Entries.keys own).Nodup)
    (hplain : ∀ name ∈ Entries.keys own, PlainName name) {cls : Str} {out : ClassFields} :
    runBody cls [] (fieldsFrom [] own) = .ok out ↔ BodyRuns own ∧ out = ownFields own := by
  rw [runBody_fieldsFrom hnodup hplain cls (List.nil_append own).symm (by simp [Entries.keys]) (by simp [Entries.keys])]
  apply and_congr_left'
  constructor
  · intro h name default hdefault hfactory
    obtain ⟨schema, hget, rfl⟩ := Option.map_eq_some_iff.mp hdefault
    exact h (name, schema) (Entries.mem_of_get? hget) hfactory
  · intro h property hproperty hfactory
    apply h property.1 _ _ hfactory
    rw [defaultOf, Entries.get?_of_mem hnodup hproperty]
    rfl

omit [UnicodeData] in
theorem keys_ownFields (own : Fields) : Entries.keys (ownFields own) = (Entries.keys own).map fieldAttribute := by
  rw [Entries.keys, ownFields, Entries.keys, List.map_map, List.map_map]
  rfl

theorem nodup_ownFields {own : Fields} (hnodup : (Entries.keys own).Nodup)
    (hplain : ∀ name ∈ Entries.keys own, PlainName name) : (Entries.keys (ownFields own)).Nodup := by
  rw [keys_ownFields]
  exact hnodup.map_on fun a ha b hb => fieldAttribute_inj (hplain a ha) (hplain b hb)

theorem get?_ownFields {own : Fields} (hnodup : (Entries.keys own).Nodup)
    (hplain : ∀ name ∈ Entries.keys own, PlainName name) {field : Str} {spec : FieldSpec} :
    Entries.get? field (ownFields own) = some spec ↔
      spec.wireName ∈ Entries.keys own ∧ field = fieldAttribute spec.wireName ∧
        spec.default = defaultIn own spec.wireName := by
  constructor
  · intro h
    obtain ⟨property, hproperty, heq⟩ := List.mem_map.mp (Entries.mem_of_get? h)
    obtain ⟨rfl, rfl⟩ := Prod.mk.inj heq
    exact ⟨List.mem_map_of_mem hproperty, rfl, rfl⟩
  · rintro ⟨hmem, rfl, hdefault⟩
    obtain ⟨property, hproperty, heq⟩ := List.mem_map.mp hmem
    apply Entries.get?_of_mem (nodup_ownFields hnodup hplain)
    apply List.mem_map.mpr
    refine ⟨property, hproperty, ?_⟩
    rw [heq, ← hdefault]

end Bodies

end Benzene.Codegen
