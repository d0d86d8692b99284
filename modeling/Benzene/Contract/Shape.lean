import Benzene.Contract.Normalize

namespace Benzene.Contract

open Benzene.Data

section Shapes

-- A schema with everything done to it that does not follow references. `wraps`
-- is the reference of a nullable wrapper, which goes as a whole when it is cut.
inductive Shape
  | value (json : Json)
  | failed (error : PyError)
  | ref (name : Str)
  | properties (members : List (Str × Shape))
  | branches (items : List Shape)
  | node (wraps : Option Str) (keywords : List (Str × Shape))

namespace Shape

theorem induct {motive : Shape → Prop} (value : ∀ json, motive (.value json))
    (failed : ∀ error, motive (.failed error)) (ref : ∀ name, motive (.ref name))
    (properties : ∀ members, (∀ member ∈ members, motive member.2) → motive (.properties members))
    (branches : ∀ items, (∀ item ∈ items, motive item) → motive (.branches items))
    (node : ∀ wraps keywords, (∀ keyword ∈ keywords, motive keyword.2) → motive (.node wraps keywords))
    (shape : Shape) : motive shape := by
  exact @Shape.rec motive (fun members => ∀ member ∈ members, motive member.2)
    (fun items => ∀ item ∈ items, motive item) (fun member => motive member.2)
    value failed ref properties branches node
    (fun _ hm => nomatch hm) (fun _ _ hmember hmembers => List.forall_mem_cons.mpr ⟨hmember, hmembers⟩)
    (fun _ hm => nomatch hm) (fun _ _ hitem hitems => List.forall_mem_cons.mpr ⟨hitem, hitems⟩)
    (fun _ _ hshape => hshape) shape

section Unfolding

variable (expand : Str → Except PyError Json) (expanding : List Str)

mutual

def unfold : Shape → Except PyError Json
  | .value json => .ok json
  | .failed error => .error error
  | .ref name => if name ∈ expanding then .ok (.obj []) else expand name
  | .properties members => do return .obj (← unfoldMembers members)
  | .branches items => do return .arr (← unfoldItems items)
  | .node wraps keywords => do
      let out ← unfoldMembers keywords
      return .obj (if wraps.any (· ∈ expanding) then [] else out)

def unfoldMembers : List (Str × Shape) → Except PyError Fields
  | [] => .ok []
  | (key, shape) :: rest => do
      let value ← unfold shape
      return (key, value) :: (← unfoldMembers rest)

def unfoldItems : List Shape → Except PyError (List Json)
  | [] => .ok []
  | shape :: rest => do
      let value ← unfold shape
      return value :: (← unfoldItems rest)

end

end Unfolding

end Shape

end Shapes

section Reading

-- The wrapper's reference, if the keywords that stay allow the whole to be cut.
def wraps (schema : Fields) (keywords : List (Str × Shape)) : Option Str :=
  (wrappedName schema).filter fun _ =>
    Json.getField schema "nullable" = .bool true &&
      (Entries.keys keywords).all fun key => key ∈ nullableKeywords

variable [UnicodeData]

def readPlain (key : Str) (value : Json) : List (Str × Shape) :=
  match plainKeyword key value with
  | .ok kept => kept.toList.map fun value => (key, .value value)
  | .error error => [(key, .failed error)]

mutual

def read : Position → Json → Shape
  | .schema, .obj schema =>
      match refName schema with
      | some name => .ref name
      | none =>
          .node (wraps schema (readKeywords schema)) (readKeywords schema)
  | .properties, .obj members => .properties (readMembers members)
  | .branches, .arr branches => .branches (readBranches branches)
  | _, value => .value value

def readKeywords : Fields → List (Str × Shape)
  | [] => []
  | (key, value) :: rest =>
      if annotates key || (key, value) = emptyProperties then readKeywords rest
      else match position key with
        | .plain => readPlain key value ++ readKeywords rest
        | position => (key, read position value) :: readKeywords rest

def readMembers : Fields → List (Str × Shape)
  | [] => []
  | (key, value) :: rest => (key, read .schema value) :: readMembers rest

def readBranches : List Json → List Shape
  | [] => []
  | branch :: rest => read .schema branch :: readBranches rest

end

end Reading

section Agreement

theorem position_properties {key : Str} (h : position key = .plain) : key ≠ "properties" := by
  rintro rfl
  revert h
  decide

theorem withoutEmpty_cons_of_ne {keyword : Str × Json} (h : keyword ≠ emptyProperties) (rest : Fields) :
    withoutEmpty (keyword :: rest) = keyword :: withoutEmpty rest := by
  simp [withoutEmpty, h]

theorem withoutEmpty_append (a b : Fields) : withoutEmpty (a ++ b) = withoutEmpty a ++ withoutEmpty b :=
  List.filter_append a b

variable {expand : Str → Except PyError Json} {expanding : List Str}

theorem unfoldMembers_cons (key : Str) (shape : Shape) (rest : List (Str × Shape)) :
    Shape.unfoldMembers expand expanding ((key, shape) :: rest) =
      shape.unfold expand expanding >>= fun value =>
        Shape.unfoldMembers expand expanding rest >>= fun values => .ok ((key, value) :: values) := rfl

theorem unfoldMembers_append (a b : List (Str × Shape)) :
    Shape.unfoldMembers expand expanding (a ++ b) =
      Shape.unfoldMembers expand expanding a >>= fun left =>
        Shape.unfoldMembers expand expanding b >>= fun right => .ok (left ++ right) := by
  induction a with
  | nil =>
      show _ = (.ok [] >>= _ : Except PyError Fields)
      cases h : Shape.unfoldMembers expand expanding b with
      | error error => simp [bind, Except.bind, h]
      | ok right => simp [bind, Except.bind, h]
  | cons member rest ih =>
      obtain ⟨key, shape⟩ := member
      rw [List.cons_append, unfoldMembers_cons, unfoldMembers_cons, ih]
      cases shape.unfold expand expanding with
      | error error => rfl
      | ok value =>
          cases Shape.unfoldMembers expand expanding rest with
          | error error => rfl
          | ok left =>
              cases Shape.unfoldMembers expand expanding b with
              | error error => rfl
              | ok right => rfl

theorem keys_unfoldMembers {members : List (Str × Shape)} {out : Fields}
    (h : Shape.unfoldMembers expand expanding members = .ok out) : Entries.keys out = Entries.keys members := by
  induction members generalizing out with
  | nil =>
      cases h
      rfl
  | cons member rest ih =>
      obtain ⟨key, shape⟩ := member
      rw [unfoldMembers_cons, Except.bind_eq_ok] at h
      obtain ⟨value, -, h⟩ := h
      obtain ⟨out', hr, h⟩ := Except.bind_eq_ok.mp h
      cases h
      simp [ih hr]

theorem withoutEmpty_plain {key : Str} (hp : position key = .plain) (kept : Option Json) :
    withoutEmpty (kept.toList.map fun value => (key, value)) = kept.toList.map fun value => (key, value) := by
  cases kept with
  | none => rfl
  | some value =>
      have hne : (key, value) ≠ emptyProperties := fun he => position_properties hp (congrArg Prod.fst he)
      exact withoutEmpty_cons_of_ne hne []

variable [UnicodeData]

theorem unfold_readPlain (key : Str) (value : Json) :
    Shape.unfoldMembers expand expanding (readPlain key value) =
      (plainKeyword key value).map fun kept => kept.toList.map fun value => (key, value) := by
  unfold readPlain
  cases plainKeyword key value with
  | error error => rfl
  | ok kept =>
      cases kept with
      | none => rfl
      | some value => rfl

theorem normalizeAt_emptyProperties {value : Json}
    (h : normalizeAt expand expanding .properties value = .ok (.obj [])) : value = .obj [] := by
  cases value with
  | obj members =>
      cases members with
      | nil => rfl
      | cons member rest =>
          obtain ⟨key, value⟩ := member
          simp only [normalizeAt, normalizeMembers] at h
          cases hv : normalizeAt expand expanding .schema value with
          | error error =>
              rw [hv] at h
              cases h
          | ok value' =>
              rw [hv] at h
              cases hr : normalizeMembers expand expanding rest with
              | error error =>
                  simp only [bind, Except.bind, hr] at h
                  cases h
              | ok rest' =>
                  simp only [bind, Except.bind, hr] at h
                  cases h
  | null | bool _ | int _ | float _ | str _ | arr _ =>
      simp only [normalizeAt] at h
      cases h

-- What a keyword that stays becomes is no empty `properties`.
theorem ne_emptyProperties {key : Str} {value value' : Json} (hne : (key, value) ≠ emptyProperties)
    (h : normalizeAt expand expanding (position key) value = .ok value') :
    (key, value') ≠ emptyProperties := by
  intro he
  cases he
  have hv : value = .obj [] := @normalizeAt_emptyProperties expand expanding _ value h
  exact hne (by rw [hv]; rfl)

section Equations

variable {key : Str} {value : Json} {rest : Fields}

theorem normalizeKeywords_annotates (ha : annotates key = true) :
    normalizeKeywords expand expanding ((key, value) :: rest) = normalizeKeywords expand expanding rest := by
  simp only [normalizeKeywords, ha, if_true]

theorem normalizeKeywords_plain (ha : annotates key = false) (hp : position key = .plain) :
    normalizeKeywords expand expanding ((key, value) :: rest) =
      plainKeyword key value >>= fun kept => normalizeKeywords expand expanding rest >>= fun out =>
        .ok ((kept.toList.map fun value => (key, value)) ++ out) := by
  simp only [normalizeKeywords, ha, hp]
  rfl

theorem normalizeKeywords_schema (ha : annotates key = false) (hp : position key ≠ .plain) :
    normalizeKeywords expand expanding ((key, value) :: rest) =
      normalizeAt expand expanding (position key) value >>= fun value' =>
        normalizeKeywords expand expanding rest >>= fun out => .ok ((key, value') :: out) := by
  cases hpos : position key with
  | plain => exact absurd hpos hp
  | schema | properties | branches =>
      simp only [normalizeKeywords, ha, hpos]
      rfl

theorem readKeywords_skip (h : annotates key = true ∨ (key, value) = emptyProperties) :
    readKeywords ((key, value) :: rest) = readKeywords rest := by
  have hskip : (annotates key || decide ((key, value) = emptyProperties)) = true := by simpa using h
  simp only [readKeywords, hskip, if_true]

theorem readKeywords_plain (ha : annotates key = false) (hp : position key = .plain) :
    readKeywords ((key, value) :: rest) = readPlain key value ++ readKeywords rest := by
  have hne : (key, value) ≠ emptyProperties := fun he => position_properties hp (congrArg Prod.fst he)
  simp only [readKeywords, ha, hne, decide_false, Bool.or_self, hp]
  rfl

theorem readKeywords_schema (ha : annotates key = false) (hne : (key, value) ≠ emptyProperties)
    (hp : position key ≠ .plain) :
    readKeywords ((key, value) :: rest) = (key, read (position key) value) :: readKeywords rest := by
  cases hpos : position key with
  | plain => exact absurd hpos hp
  | schema | properties | branches =>
      simp only [readKeywords, ha, hne, decide_false, Bool.or_self, hpos]
      rfl

end Equations

theorem normalizeKeywords_eq {schema : Fields} (h : ∀ keyword ∈ schema, ∀ pos,
    normalizeAt expand expanding pos keyword.2 = (read pos keyword.2).unfold expand expanding) :
    (normalizeKeywords expand expanding schema).map withoutEmpty =
      Shape.unfoldMembers expand expanding (readKeywords schema) := by
  induction schema with
  | nil => rfl
  | cons keyword rest ih =>
      obtain ⟨key, value⟩ := keyword
      have hrest := ih fun other hm => h other (List.mem_cons_of_mem _ hm)
      have hvalue := h (key, value) List.mem_cons_self
      cases ha : annotates key with
      | true =>
          rw [normalizeKeywords_annotates ha, readKeywords_skip (.inl ha)]
          exact hrest
      | false =>
          by_cases hp : position key = .plain
          · rw [normalizeKeywords_plain ha hp, readKeywords_plain ha hp, unfoldMembers_append,
              unfold_readPlain, ← hrest]
            cases plainKeyword key value with
            | error error => rfl
            | ok kept =>
                cases normalizeKeywords expand expanding rest with
                | error error => rfl
                | ok out =>
                    simp only [bind, Except.bind, Except.map, withoutEmpty_append, withoutEmpty_plain hp]
          · rw [normalizeKeywords_schema ha hp]
            by_cases hne : (key, value) = emptyProperties
            · rw [readKeywords_skip (.inr hne), ← hrest]
              cases hne
              cases normalizeKeywords expand expanding rest with
              | error error => rfl
              | ok out => rfl
            · rw [readKeywords_schema ha hne hp, unfoldMembers_cons, ← hvalue, ← hrest]
              cases hv : normalizeAt expand expanding (position key) value with
              | error error => rfl
              | ok value' =>
                  have hstays := ne_emptyProperties hne hv
                  cases normalizeKeywords expand expanding rest with
                  | error error => rfl
                  | ok out =>
                      simp only [bind, Except.bind, Except.map, withoutEmpty_cons_of_ne hstays]

-- A keyword that holds no schema and is neither sorted nor emptied.
def Stays (key : Str) : Prop :=
  annotates key = false ∧ position key = .plain ∧ key ≠ "required" ∧ key ≠ "discriminator"

theorem plainKeyword_stays {key : Str} (h : Stays key) (value : Json) :
    plainKeyword key value = .ok (some value) := by
  obtain ⟨-, -, hrequired, hdiscriminator⟩ := h
  cases value with
  | arr items => simp only [plainKeyword, hrequired, if_false]
  | obj fields => simp only [plainKeyword, hdiscriminator, if_false]
  | null | bool _ | int _ | float _ | str _ => rfl

theorem getField_stays {schema out : Fields} {key : Str} (hkey : Stays key)
    (h : normalizeKeywords expand expanding schema = .ok out) :
    Json.getField (withoutEmpty out) key = Json.getField schema key := by
  unfold Json.getField
  congr 1
  induction schema generalizing out with
  | nil =>
      cases h
      rfl
  | cons keyword rest ih =>
      obtain ⟨other, value⟩ := keyword
      by_cases hother : other = key
      · subst hother
        have hplain := plainKeyword_stays hkey value
        obtain ⟨ha, hp, -⟩ := hkey
        rw [normalizeKeywords_plain ha hp, hplain] at h
        obtain ⟨out', hr, h⟩ : ∃ out', normalizeKeywords expand expanding rest = .ok out' ∧
            .ok ((some value).toList.map (fun value => (other, value)) ++ out') =
              (.ok out : Except PyError Fields) := Except.bind_eq_ok.mp h
        cases h
        rw [withoutEmpty_append, withoutEmpty_plain hp]
        simp
      · rw [Entries.get?_cons, if_neg hother]
        cases ha : annotates other with
        | true =>
            rw [normalizeKeywords_annotates ha] at h
            exact ih h
        | false =>
            by_cases hp : position other = .plain
            · rw [normalizeKeywords_plain ha hp] at h
              obtain ⟨kept, -, h⟩ := Except.bind_eq_ok.mp h
              obtain ⟨out', hr, h⟩ := Except.bind_eq_ok.mp h
              cases h
              rw [withoutEmpty_append, withoutEmpty_plain hp, Entries.get?_append, ← ih hr]
              cases kept <;> simp [hother]
            · rw [normalizeKeywords_schema ha hp] at h
              obtain ⟨value', -, h⟩ := Except.bind_eq_ok.mp h
              obtain ⟨out', hr, h⟩ := Except.bind_eq_ok.mp h
              cases h
              rw [← ih hr]
              by_cases hne : (other, value') = emptyProperties
              · simp [withoutEmpty, hne]
              · rw [withoutEmpty_cons_of_ne hne]
                simp [hother]

-- What `nullable` says stays.
theorem getField_nullable {schema out : Fields} (h : normalizeKeywords expand expanding schema = .ok out) :
    Json.getField (withoutEmpty out) "nullable" = Json.getField schema "nullable" :=
  getField_stays ⟨by decide, by decide, by decide, by decide⟩ h

theorem normalizeMembers_eq {members : Fields} (h : ∀ member ∈ members,
    normalizeAt expand expanding .schema member.2 = (read .schema member.2).unfold expand expanding) :
    normalizeMembers expand expanding members =
      Shape.unfoldMembers expand expanding (readMembers members) := by
  induction members with
  | nil => rfl
  | cons member rest ih =>
      obtain ⟨key, value⟩ := member
      have hrest := ih fun other hm => h other (List.mem_cons_of_mem _ hm)
      have hvalue := h (key, value) List.mem_cons_self
      simp only [normalizeMembers, readMembers, Shape.unfoldMembers, hvalue, hrest]

theorem normalizeBranches_eq {branches : List Json} (h : ∀ branch ∈ branches,
    normalizeAt expand expanding .schema branch = (read .schema branch).unfold expand expanding) :
    normalizeBranches expand expanding branches =
      Shape.unfoldItems expand expanding (readBranches branches) := by
  induction branches with
  | nil => rfl
  | cons branch rest ih =>
      have hrest := ih fun other hm => h other (List.mem_cons_of_mem _ hm)
      have hvalue := h branch List.mem_cons_self
      simp only [normalizeBranches, readBranches, Shape.unfoldItems, hvalue, hrest]

theorem isCutNullableReference_eq {schema out : Fields}
    (h : normalizeKeywords expand expanding schema = .ok out)
    (hout : Shape.unfoldMembers expand expanding (readKeywords schema) = .ok (withoutEmpty out)) :
    isCutNullableReference schema (withoutEmpty out) expanding =
      (wraps schema (readKeywords schema)).any (· ∈ expanding) := by
  unfold isCutNullableReference wraps
  rw [getField_nullable h, keys_unfoldMembers hout]
  cases wrappedName schema with
  | none => rfl
  | some name =>
      simp only [Option.filter_some]
      by_cases hcond : (decide (Json.getField schema "nullable" = .bool true) &&
          (Entries.keys (readKeywords schema)).all fun key => decide (key ∈ nullableKeywords)) = true
      · rw [if_pos hcond, Bool.and_assoc, hcond, Bool.and_true]
        rfl
      · rw [if_neg hcond, Bool.and_assoc, Bool.eq_false_of_not_eq_true hcond, Bool.and_false]
        rfl

-- Normalizing is reading and then following the references.
theorem normalizeAt_eq (schema : Json) (pos : Position) :
    normalizeAt expand expanding pos schema = (read pos schema).unfold expand expanding := by
  induction schema using Json.induct generalizing pos with
  | null => cases pos <;> rfl
  | bool b => cases pos <;> rfl
  | int n => cases pos <;> rfl
  | float x => cases pos <;> rfl
  | str text => cases pos <;> rfl
  | arr items ih =>
      cases pos with
      | branches =>
          have hbranches := normalizeBranches_eq fun branch hm => ih branch hm .schema
          simp only [normalizeAt, read, Shape.unfold, hbranches]
      | schema | properties | plain => rfl
  | obj fields ih =>
      cases pos with
      | plain => rfl
      | branches => rfl
      | properties =>
          have hmembers := normalizeMembers_eq fun member hm => ih member hm .schema
          simp only [normalizeAt, read, Shape.unfold, hmembers]
      | schema =>
          cases hr : refName fields with
          | some name => simp only [normalizeAt, read, Shape.unfold, hr]
          | none =>
              have hkeywords := normalizeKeywords_eq ih
              simp only [normalizeAt, read, Shape.unfold, hr]
              cases hk : normalizeKeywords expand expanding fields with
              | error error =>
                  rw [hk] at hkeywords
                  rw [← hkeywords]
                  rfl
              | ok out =>
                  rw [hk] at hkeywords
                  have hout : Shape.unfoldMembers expand expanding (readKeywords fields) =
                      .ok (withoutEmpty out) := hkeywords.symm
                  rw [hout]
                  have hcut := isCutNullableReference_eq hk hout
                  simp only [bind, Except.bind, hcut]

end Agreement

end Benzene.Contract
