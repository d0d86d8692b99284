import Benzene.Contract.Expansion
import Benzene.Contract.Sorting

namespace Benzene.Contract

open Benzene.Data

section Positions

-- A schema that stands at a schema position of a value.
inductive Occurs : Position → Json → Fields → Prop
  | here (schema : Fields) : Occurs .schema (.obj schema) schema
  | keyword {schema found : Fields} {key : Str} {value : Json} (hkey : (key, value) ∈ schema)
      (h : Occurs (position key) value found) : Occurs .schema (.obj schema) found
  | member {members found : Fields} {key : Str} {value : Json} (hkey : (key, value) ∈ members)
      (h : Occurs .schema value found) : Occurs .properties (.obj members) found
  | branch {branches : List Json} {found : Fields} {branch : Json} (hbranch : branch ∈ branches)
      (h : Occurs .schema branch found) : Occurs .branches (.arr branches) found

variable [UnicodeData]

mutual

-- A value that normalizing leaves as it is.
def Normal : Position → Json → Prop
  | .schema, .obj schema => refName schema = none ∧ NormalKeywords schema
  | .properties, .obj members => NormalMembers members
  | .branches, .arr branches => NormalBranches branches
  | _, _ => True

def NormalKeywords : Fields → Prop
  | [] => True
  | (key, value) :: rest =>
      annotates key = false ∧ (key, value) ≠ emptyProperties ∧
        (position key = .plain → plainKeyword key value = .ok (some value)) ∧
        Normal (position key) value ∧ NormalKeywords rest

def NormalMembers : Fields → Prop
  | [] => True
  | (_, value) :: rest => Normal .schema value ∧ NormalMembers rest

def NormalBranches : List Json → Prop
  | [] => True
  | branch :: rest => Normal .schema branch ∧ NormalBranches rest

end

theorem normal_plain (value : Json) : Normal .plain value := by
  cases value <;> trivial

theorem normalKeywords_iff {schema : Fields} : NormalKeywords schema ↔ ∀ keyword ∈ schema,
    annotates keyword.1 = false ∧ keyword ≠ emptyProperties ∧
      (position keyword.1 = .plain → plainKeyword keyword.1 keyword.2 = .ok (some keyword.2)) ∧
      Normal (position keyword.1) keyword.2 := by
  induction schema with
  | nil => simp [NormalKeywords]
  | cons keyword rest ih =>
      rw [List.forall_mem_cons, ← ih, NormalKeywords]
      tauto

theorem normalMembers_iff {members : Fields} :
    NormalMembers members ↔ ∀ member ∈ members, Normal .schema member.2 := by
  induction members with
  | nil => simp [NormalMembers]
  | cons member rest ih => rw [List.forall_mem_cons, ← ih, NormalMembers]

theorem normalBranches_iff {branches : List Json} :
    NormalBranches branches ↔ ∀ branch ∈ branches, Normal .schema branch := by
  induction branches with
  | nil => simp [NormalBranches]
  | cons branch rest ih => rw [List.forall_mem_cons, ← ih, NormalBranches]

theorem Normal.occurs {pos : Position} {value : Json} {found : Fields} (h : Normal pos value)
    (ho : Occurs pos value found) :
    refName found = none ∧ ∀ key ∈ Entries.keys found, annotates key = false := by
  induction ho with
  | here schema =>
      refine ⟨h.1, ?_⟩
      intro key hkey
      obtain ⟨keyword, hkeyword, rfl⟩ := List.mem_map.mp hkey
      exact (normalKeywords_iff.mp h.2 keyword hkeyword).1
  | keyword hkey _ ih => exact ih (normalKeywords_iff.mp h.2 _ hkey).2.2.2
  | member hkey _ ih => exact ih (normalMembers_iff.mp h _ hkey)
  | branch hbranch _ ih => exact ih (normalBranches_iff.mp h _ hbranch)

end Positions

section Keywords

variable {α κ ε : Type} [LinearOrder κ] {key : α → Except ε κ}

-- What was sorted stays sorted.
theorem sortedBy_sorted {items out : List α} (h : sortedBy key items = .ok out) : sortedBy key out = .ok out := by
  obtain ⟨keyed, hkeyed, hout⟩ := Except.bind_eq_ok.mp h
  cases hout
  have hpair : ∀ pair ∈ sortOn Prod.fst keyed, key pair.2 = .ok pair.1 := by
    intro pair hpair
    rw [Except.mapM_eq_ok] at hkeyed
    obtain ⟨item, -, hok⟩ := exists_of_mem_right hkeyed ((sortOn_perm _ _).mem_iff.mp hpair)
    obtain ⟨value, hvalue, hok⟩ := Except.bind_eq_ok.mp hok
    cases hok
    exact hvalue
  have hagain : ((sortOn Prod.fst keyed).map Prod.snd).mapM (fun item => do return (← key item, item)) =
      Except.ok (sortOn Prod.fst keyed) := by
    generalize sortOn Prod.fst keyed = pairs at hpair
    induction pairs with
    | nil => rfl
    | cons pair rest ih =>
        obtain ⟨hhead, hrest⟩ := List.forall_mem_cons.mp hpair
        rw [List.map_cons, List.mapM_cons, ih hrest, hhead]
        rfl
  have hsorted : sortOn Prod.fst (sortOn Prod.fst keyed) = sortOn Prod.fst keyed := by
    have hpairwise := sortOn_pairwise Prod.fst keyed
    exact List.Pairwise.insertionSort_eq hpairwise
  unfold sortedBy
  rw [hagain]
  show Except.ok _ = _
  rw [hsorted]

end Keywords

section Soundness

variable [UnicodeData]

theorem plainKeyword_kept {key : Str} {value kept : Json} (h : plainKeyword key value = .ok (some kept)) :
    plainKeyword key kept = .ok (some kept) := by
  cases value with
  | arr items =>
      by_cases hkey : key = "required"
      · simp only [plainKeyword, hkey, if_true] at h
        by_cases hnil : items = []
        · rw [if_pos hnil] at h
          cases h
        · rw [if_neg hnil] at h
          obtain ⟨out, hsorted, hout⟩ := Except.bind_eq_ok.mp h
          cases hout
          have hne : out ≠ [] := fun he => hnil ((he ▸ sortedBy_perm hsorted).nil_eq.symm)
          simp only [plainKeyword, hkey, if_true, if_neg hne, sortedBy_sorted hsorted]
          rfl
      · simp only [plainKeyword, hkey, if_false] at h
        cases h
        simp only [plainKeyword, hkey, if_false]
  | obj fields =>
      cases h
      by_cases hkey : key = "discriminator"
      · simp only [plainKeyword, hkey, if_true, Entries.erase, List.filter_filter, Bool.and_self]
      · simp only [plainKeyword, hkey, if_false]
  | null | bool _ | int _ | float _ | str _ =>
      cases h
      rfl

variable {expand : Str → Except PyError Json} {expanding : List Str}

theorem normalKeywords_normalize {schema out : Fields} (hvalues : ∀ keyword ∈ schema, ∀ pos value,
    normalizeAt expand expanding pos keyword.2 = .ok value → Normal pos value)
    (h : normalizeKeywords expand expanding schema = .ok out) : NormalKeywords (withoutEmpty out) := by
  induction schema generalizing out with
  | nil =>
      cases h
      trivial
  | cons keyword rest ih =>
      obtain ⟨key, value⟩ := keyword
      obtain ⟨hvalue, hrest⟩ := List.forall_mem_cons.mp hvalues
      cases ha : annotates key with
      | true =>
          rw [normalizeKeywords_annotates ha] at h
          exact ih hrest h
      | false =>
          by_cases hp : position key = .plain
          · rw [normalizeKeywords_plain ha hp] at h
            obtain ⟨kept, hkept, h⟩ := Except.bind_eq_ok.mp h
            obtain ⟨out', hr, h⟩ := Except.bind_eq_ok.mp h
            cases h
            rw [withoutEmpty_append, withoutEmpty_plain hp]
            cases kept with
            | none => exact ih hrest hr
            | some kept =>
                have hne : (key, kept) ≠ emptyProperties := fun he => position_properties hp (congrArg Prod.fst he)
                refine ⟨ha, hne, fun _ => plainKeyword_kept hkept, ?_, ih hrest hr⟩
                rw [hp]
                exact normal_plain kept
          · rw [normalizeKeywords_schema ha hp] at h
            obtain ⟨value', hvalue', h⟩ := Except.bind_eq_ok.mp h
            obtain ⟨out', hr, h⟩ := Except.bind_eq_ok.mp h
            cases h
            by_cases hne : (key, value') = emptyProperties
            · simp only [withoutEmpty, List.filter_cons, hne, ne_eq, not_true_eq_false, decide_false,
                Bool.false_eq_true, if_false]
              exact ih hrest hr
            · rw [withoutEmpty_cons_of_ne hne]
              exact ⟨ha, hne, fun he => absurd he hp, hvalue (position key) value' hvalue', ih hrest hr⟩

theorem normalMembers_normalize {members out : Fields} (hvalues : ∀ member ∈ members, ∀ value,
    normalizeAt expand expanding .schema member.2 = .ok value → Normal .schema value)
    (h : normalizeMembers expand expanding members = .ok out) : NormalMembers out := by
  induction members generalizing out with
  | nil =>
      cases h
      trivial
  | cons member rest ih =>
      obtain ⟨key, value⟩ := member
      obtain ⟨hvalue, hrest⟩ := List.forall_mem_cons.mp hvalues
      obtain ⟨value', hvalue', h⟩ := Except.bind_eq_ok.mp h
      obtain ⟨out', hr, h⟩ := Except.bind_eq_ok.mp h
      cases h
      exact ⟨hvalue value' hvalue', ih hrest hr⟩

theorem normalBranches_normalize {branches out : List Json} (hvalues : ∀ branch ∈ branches, ∀ value,
    normalizeAt expand expanding .schema branch = .ok value → Normal .schema value)
    (h : normalizeBranches expand expanding branches = .ok out) : NormalBranches out := by
  induction branches generalizing out with
  | nil =>
      cases h
      trivial
  | cons branch rest ih =>
      obtain ⟨hvalue, hrest⟩ := List.forall_mem_cons.mp hvalues
      obtain ⟨value', hvalue', h⟩ := Except.bind_eq_ok.mp h
      obtain ⟨out', hr, h⟩ := Except.bind_eq_ok.mp h
      cases h
      exact ⟨hvalue value' hvalue', ih hrest hr⟩

theorem refName_withoutEmpty {schema out : Fields} (h : normalizeKeywords expand expanding schema = .ok out) :
    refName (withoutEmpty out) = refName schema := by
  unfold refName
  rw [getField_stays ⟨by decide, by decide, by decide, by decide⟩ h]

-- Induction on the schema: what is written is normal where what is expanded is.
theorem normal_normalizeAt (hexpand : ∀ name out, name ∉ expanding → expand name = .ok out → Normal .schema out)
    (schema : Json) {pos : Position} {out : Json} (h : normalizeAt expand expanding pos schema = .ok out) :
    Normal pos out := by
  induction schema using Json.induct generalizing pos out with
  | null | bool b | int n | float x | str text =>
      cases pos <;> cases h <;> trivial
  | arr items ih =>
      cases pos with
      | branches =>
          obtain ⟨out', hbranches, h⟩ := Except.bind_eq_ok.mp h
          cases h
          exact normalBranches_normalize (fun branch hm _ => ih branch hm) hbranches
      | schema | properties | plain =>
          cases h
          trivial
  | obj fields ih =>
      cases pos with
      | plain | branches =>
          cases h
          trivial
      | properties =>
          obtain ⟨out', hmembers, h⟩ := Except.bind_eq_ok.mp h
          cases h
          exact normalMembers_normalize (fun member hm _ => ih member hm) hmembers
      | schema =>
          cases hr : refName fields with
          | some name =>
              simp only [normalizeAt, hr] at h
              by_cases hcut : name ∈ expanding
              · rw [if_pos hcut] at h
                cases h
                exact ⟨rfl, trivial⟩
              · rw [if_neg hcut] at h
                exact hexpand name out hcut h
          | none =>
              simp only [normalizeAt, hr] at h
              obtain ⟨out', hkeywords, h⟩ := Except.bind_eq_ok.mp h
              cases h
              split
              · exact ⟨rfl, trivial⟩
              · refine ⟨(refName_withoutEmpty hkeywords).trans hr, ?_⟩
                exact normalKeywords_normalize (fun keyword hm _ _ => ih keyword hm) hkeywords

theorem normal_normalize {catalogue : Fields} {expanding : List Str} {schema out : Json}
    (h : normalize catalogue expanding schema = .ok out) : Normal .schema out := by
  induction expanding using expansion_induct catalogue generalizing schema out with
  | step expanding ih =>
      rw [normalize_eq] at h
      apply normal_normalizeAt _ schema h
      intro name out' hname hout
      by_cases hmem : name ∈ Entries.keys catalogue
      · exact ih name hmem hname hout
      · rw [component_dangling hmem, normalize, normalizeWithin_open] at hout
        cases hout
        exact ⟨rfl, trivial⟩

end Soundness

section Fixpoint

variable [UnicodeData] {expand : Str → Except PyError Json} {expanding : List Str}

theorem normalizeKeywords_normal {schema : Fields} (h : NormalKeywords schema)
    (hvalues : ∀ keyword ∈ schema, ∀ pos, Normal pos keyword.2 →
      normalizeAt expand expanding pos keyword.2 = .ok keyword.2) :
    normalizeKeywords expand expanding schema = .ok schema := by
  induction schema with
  | nil => rfl
  | cons keyword rest ih =>
      obtain ⟨key, value⟩ := keyword
      obtain ⟨ha, hne, hplain, hnormal, hrest⟩ := h
      obtain ⟨hvalue, hothers⟩ := List.forall_mem_cons.mp hvalues
      by_cases hp : position key = .plain
      · rw [normalizeKeywords_plain ha hp, hplain hp, ih hrest hothers]
        rfl
      · rw [normalizeKeywords_schema ha hp, hvalue _ hnormal, ih hrest hothers]
        rfl

theorem normalizeMembers_normal {members : Fields} (h : NormalMembers members)
    (hvalues : ∀ member ∈ members, Normal .schema member.2 →
      normalizeAt expand expanding .schema member.2 = .ok member.2) :
    normalizeMembers expand expanding members = .ok members := by
  induction members with
  | nil => rfl
  | cons member rest ih =>
      obtain ⟨key, value⟩ := member
      obtain ⟨hnormal, hrest⟩ := h
      obtain ⟨hvalue, hothers⟩ := List.forall_mem_cons.mp hvalues
      rw [normalizeMembers, hvalue hnormal, ih hrest hothers]
      rfl

theorem normalizeBranches_normal {branches : List Json} (h : NormalBranches branches)
    (hvalues : ∀ branch ∈ branches, Normal .schema branch →
      normalizeAt expand expanding .schema branch = .ok branch) :
    normalizeBranches expand expanding branches = .ok branches := by
  induction branches with
  | nil => rfl
  | cons branch rest ih =>
      obtain ⟨hnormal, hrest⟩ := h
      obtain ⟨hvalue, hothers⟩ := List.forall_mem_cons.mp hvalues
      rw [normalizeBranches, hvalue hnormal, ih hrest hothers]
      rfl

theorem withoutEmpty_normal {schema : Fields} (h : NormalKeywords schema) : withoutEmpty schema = schema := by
  apply List.filter_eq_self.mpr
  intro keyword hkeyword
  simpa using (normalKeywords_iff.mp h keyword hkeyword).2.1

-- Where no reference is left no wrapper is cut either.
theorem wrappedName_normal {schema : Fields} (h : NormalKeywords schema) : wrappedName schema = none := by
  unfold wrappedName Json.getField
  cases hget : Entries.get? ("allOf" : Str) schema with
  | none => rfl
  | some value =>
      obtain ⟨-, -, -, hnormal⟩ := normalKeywords_iff.mp h _ (Entries.mem_of_get? hget)
      have hpos : position (Str.ofString "allOf") = .branches := by decide
      simp only [Option.getD_some]
      split
      · rename_i member
        rw [hpos] at hnormal
        exact (normalBranches_iff.mp hnormal _ List.mem_cons_self).1
      · rfl

theorem normalizeAt_normal {pos : Position} {value : Json} (h : Normal pos value) :
    normalizeAt expand expanding pos value = .ok value := by
  induction value using Json.induct generalizing pos with
  | null | bool b | int n | float x | str text => cases pos <;> rfl
  | arr items ih =>
      cases pos with
      | branches =>
          rw [normalizeAt, normalizeBranches_normal h fun branch hm hnormal => ih branch hm hnormal]
          rfl
      | schema | properties | plain => rfl
  | obj fields ih =>
      cases pos with
      | plain | branches => rfl
      | properties =>
          rw [normalizeAt, normalizeMembers_normal h fun member hm hnormal => ih member hm hnormal]
          rfl
      | schema =>
          obtain ⟨href, hkeywords⟩ := h
          have hcut : isCutNullableReference fields fields expanding = false := by
            rw [isCutNullableReference, wrappedName_normal hkeywords]
          have hout := normalizeKeywords_normal hkeywords fun keyword hm pos hnormal => ih keyword hm hnormal
          simp only [normalizeAt, href, hout, bind, Except.bind, withoutEmpty_normal hkeywords, hcut]
          rfl

end Fixpoint

section Termination

variable [UnicodeData] (catalogue : Fields)

-- The recursion of the code, `stuck` standing for what lies below so many expansions.
def normalizeAbove (stuck : Str → Except PyError Json) : Nat → List Str → Json → Except PyError Json
  | 0, expanding => normalizeAt stuck expanding .schema
  | depth + 1, expanding =>
      normalizeAt (fun name => normalizeAbove stuck depth (name :: expanding) (component catalogue name))
        expanding .schema

variable {catalogue}

theorem normalizeAbove_open (stuck : Str → Except PyError Json) (depth : Nat) (expanding : List Str) :
    normalizeAbove catalogue stuck depth expanding (.obj []) = .ok (.obj []) := by
  cases depth <;> rfl

-- No path expands more names than are left, and one that dangles.
theorem normalizeAbove_eq (stuck : Str → Except PyError Json) {depth : Nat} {expanding : List Str}
    (hdepth : remaining catalogue expanding < depth) (schema : Json) :
    normalizeAbove catalogue stuck depth expanding schema = normalize catalogue expanding schema := by
  induction depth generalizing expanding schema with
  | zero => omega
  | succ n ih =>
      rw [normalize_eq]
      apply normalizeAt_congr
      intro name hname
      by_cases hmem : name ∈ Entries.keys catalogue
      · have hlt := remaining_cons_lt hmem hname
        apply ih
        omega
      · rw [component_dangling hmem, normalizeAbove_open, normalize, normalizeWithin_open]

end Termination

section Canonical

variable [UnicodeData]

-- Normalizing ends, in a schema of its own that it leaves as it is.
theorem normalizeSchema_canonical (catalogue : Fields) (schema : Json) :
    (∀ stuck depth, catalogue.length < depth →
      normalizeAbove catalogue stuck depth [] schema = normalizeSchema catalogue schema) ∧
    ∀ out, normalizeSchema catalogue schema = .ok out →
      (∀ found, Occurs .schema out found →
        refName found = none ∧ ∀ key ∈ Entries.keys found, annotates key = false) ∧
      ∀ other, normalizeSchema other out = .ok out := by
  constructor
  · intro stuck depth hdepth
    have hle := remaining_le catalogue []
    apply normalizeAbove_eq
    omega
  · intro out h
    have hnormal := normal_normalize h
    refine ⟨fun found => hnormal.occurs, ?_⟩
    intro other
    show normalize other [] out = .ok out
    rw [normalize_eq]
    exact normalizeAt_normal hnormal

end Canonical

end Benzene.Contract
