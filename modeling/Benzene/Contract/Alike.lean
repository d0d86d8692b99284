import Benzene.Contract.Expansion
import Benzene.Contract.Sorting

namespace Benzene.Contract

open Benzene.Data

section Shapes

variable (rename : Str → Str)

namespace Shape

-- Shapes that differ in the names they refer to, and in the order of members.
inductive Alike : Shape → Shape → Prop
  | value {v w : Json} (h : v.canonical = w.canonical) : Alike (.value v) (.value w)
  | ref (name : Str) : Alike (.ref name) (.ref (rename name))
  | properties {a b : List (Str × Shape)} (ha : (Entries.keys a).Nodup) (hb : (Entries.keys b).Nodup)
      (hkeys : ∀ key, Entries.get? key a = none ↔ Entries.get? key b = none)
      (h : ∀ key s t, Entries.get? key a = some s → Entries.get? key b = some t → Alike s t) :
      Alike (.properties a) (.properties b)
  | branches {a b : List Shape} (hlength : a.length = b.length)
      (h : ∀ pair ∈ a.zip b, Alike pair.1 pair.2) : Alike (.branches a) (.branches b)
  | node {wraps : Option Str} {a b : List (Str × Shape)} (ha : (Entries.keys a).Nodup)
      (hb : (Entries.keys b).Nodup) (hkeys : ∀ key, Entries.get? key a = none ↔ Entries.get? key b = none)
      (h : ∀ key s t, Entries.get? key a = some s → Entries.get? key b = some t → Alike s t) :
      Alike (.node wraps a) (.node (wraps.map rename) b)

variable {rename} {expand expand' : Str → Except PyError Json} {expanding expanding' : List Str}

theorem unfoldMembers_alike {a b : List (Str × Shape)} (ha : (Entries.keys a).Nodup) (hb : (Entries.keys b).Nodup)
    (hkeys : ∀ key, Entries.get? key a = none ↔ Entries.get? key b = none)
    (h : ∀ key s t, Entries.get? key a = some s → Entries.get? key b = some t →
      Agree (s.unfold expand expanding) (t.unfold expand' expanding')) :
    ∃ out out', unfoldMembers expand expanding a = .ok out ∧ unfoldMembers expand' expanding' b = .ok out' ∧
      (Json.obj out).canonical = (Json.obj out').canonical := by
  have hright {key : Str} {s : Shape} (hs : Entries.get? key a = some s) : ∃ t, Entries.get? key b = some t := by
    apply Option.ne_none_iff_exists'.mp
    intro ht
    rw [(hkeys key).mpr ht] at hs
    cases hs
  have hleft {key : Str} {t : Shape} (ht : Entries.get? key b = some t) : ∃ s, Entries.get? key a = some s := by
    apply Option.ne_none_iff_exists'.mp
    intro hs
    rw [(hkeys key).mp hs] at ht
    cases ht
  obtain ⟨out, hout⟩ : ∃ out, unfoldMembers expand expanding a = .ok out := by
    apply unfoldMembers_ok
    intro member hm
    have hs := Entries.get?_of_mem ha hm
    obtain ⟨t, ht⟩ := hright hs
    obtain ⟨v, -, hv, -⟩ := h _ _ t hs ht
    exact ⟨v, hv⟩
  obtain ⟨out', hout'⟩ : ∃ out', unfoldMembers expand' expanding' b = .ok out' := by
    apply unfoldMembers_ok
    intro member hm
    have ht := Entries.get?_of_mem hb hm
    obtain ⟨s, hs⟩ := hleft ht
    obtain ⟨-, w, -, hw, -⟩ := h _ s _ hs ht
    exact ⟨w, hw⟩
  refine ⟨out, out', hout, hout', ?_⟩
  apply Json.canonical_of_get?
  · rw [keys_unfoldMembers hout]
    exact ha
  · rw [keys_unfoldMembers hout']
    exact hb
  · intro key
    have hget := get?_unfoldMembers hout key
    have hget' := get?_unfoldMembers hout' key
    cases hs : Entries.get? key a with
    | none =>
        rw [hs, Option.map_none, Option.map_eq_none_iff] at hget
        rw [(hkeys key).mp hs, Option.map_none, Option.map_eq_none_iff] at hget'
        rw [hget, hget']
    | some s =>
        obtain ⟨t, ht⟩ := hright hs
        obtain ⟨v, w, hv, hw, hsame⟩ := h key s t hs ht
        rw [hs, Option.map_some, hv] at hget
        rw [ht, Option.map_some, hw] at hget'
        obtain ⟨v', hgetv, hokv⟩ := Option.map_eq_some_iff.mp hget
        obtain ⟨w', hgetw, hokw⟩ := Option.map_eq_some_iff.mp hget'
        cases hokv
        cases hokw
        rw [hgetv, hgetw, Option.map_some, Option.map_some, hsame]

theorem unfoldItems_alike {a b : List Shape} (hlength : a.length = b.length)
    (h : ∀ pair ∈ a.zip b, Agree (pair.1.unfold expand expanding) (pair.2.unfold expand' expanding')) :
    ∃ out out', unfoldItems expand expanding a = .ok out ∧ unfoldItems expand' expanding' b = .ok out' ∧
      out.map Json.canonical = out'.map Json.canonical := by
  induction a generalizing b with
  | nil =>
      cases b with
      | nil => exact ⟨[], [], rfl, rfl, rfl⟩
      | cons _ _ => cases hlength
  | cons s rest ih =>
      cases b with
      | nil => cases hlength
      | cons t more =>
          rw [List.zip_cons_cons, List.forall_mem_cons] at h
          obtain ⟨⟨v, w, hv, hw, hsame⟩, hrest⟩ := h
          obtain ⟨out, out', hout, hout', hmap⟩ := ih (Nat.succ.inj hlength) hrest
          refine ⟨v :: out, w :: out', ?_, ?_, ?_⟩
          · rw [unfoldItems, hv, hout]
            rfl
          · rw [unfoldItems, hw, hout']
            rfl
          · rw [List.map_cons, List.map_cons, hsame, hmap]

-- Such shapes unfold to one canonical form, where their references expand to one.
theorem unfold_alike (hrename : Function.Injective rename)
    (hexpand : ∀ name, name ∉ expanding → Agree (expand name) (expand' (rename name)))
    {s t : Shape} (h : Alike rename s t) :
    Agree (s.unfold expand expanding) (t.unfold expand' (expanding.map rename)) := by
  induction h with
  | @value v w h => exact ⟨v, w, rfl, rfl, h⟩
  | ref name =>
      simp only [unfold, List.mem_map_of_injective hrename]
      by_cases hcut : name ∈ expanding
      · rw [if_pos hcut, if_pos hcut]
        exact ⟨_, _, rfl, rfl, rfl⟩
      · rw [if_neg hcut, if_neg hcut]
        exact hexpand name hcut
  | properties ha hb hkeys _ ih =>
      obtain ⟨out, out', hout, hout', hsame⟩ := unfoldMembers_alike ha hb hkeys ih
      refine ⟨.obj out, .obj out', ?_, ?_, hsame⟩
      · rw [unfold, hout]
        rfl
      · rw [unfold, hout']
        rfl
  | branches hlength _ ih =>
      obtain ⟨out, out', hout, hout', hsame⟩ := unfoldItems_alike hlength ih
      refine ⟨.arr out, .arr out', ?_, ?_, ?_⟩
      · rw [unfold, hout]
        rfl
      · rw [unfold, hout']
        rfl
      · rw [Json.canonical_arr, Json.canonical_arr, hsame]
  | @node wraps a b ha hb hkeys _ ih =>
      obtain ⟨out, out', hout, hout', hsame⟩ := unfoldMembers_alike ha hb hkeys ih
      have hwraps : (wraps.map rename).any (· ∈ expanding.map rename) = wraps.any (· ∈ expanding) := by
        cases wraps with
        | none => rfl
        | some name => simp only [Option.map_some, Option.any_some, List.mem_map_of_injective hrename]
      refine ⟨.obj (if wraps.any (· ∈ expanding) then [] else out),
        .obj (if wraps.any (· ∈ expanding) then [] else out'), ?_, ?_, ?_⟩
      · rw [unfold, hout]
        rfl
      · rw [unfold, hout', hwraps]
        rfl
      · split
        · rfl
        · exact hsame

end Shape

end Shapes

section Schemas

-- What stands at a position and is not read there.
def NoSchema (pos : Position) (value : Json) : Prop :=
  match pos with
  | .branches => ∀ items, value ≠ .arr items
  | _ => ∀ fields, value ≠ .obj fields

-- Keywords that hold no schema: the order of `required` and the component names of a
-- discriminator may differ.
inductive PlainAlike : Str → Json → Json → Prop
  | same {key : Str} {value : Json} (h : key = "required" → ∀ items, value ≠ .arr items) :
      PlainAlike key value value
  | required {names names' : List Str} (hnames : ∀ name ∈ names, name.Encodable) (h : names.Perm names') :
      PlainAlike "required" (.arr (names.map .str)) (.arr (names'.map .str))
  | discriminator {a b : Fields} (h : Entries.erase ("mapping" : Str) a = Entries.erase ("mapping" : Str) b) :
      PlainAlike "discriminator" (.obj a) (.obj b)

-- Schemas that differ in annotations, in the order of members and of `required`, and in
-- the names of the components they refer to.
inductive Alike (rename : Str → Str) : Position → Json → Json → Prop
  | value {pos : Position} {value : Json} (h : NoSchema pos value) : Alike rename pos value value
  | reference {a b : Fields} {name : Str} (ha : refName a = some name) (hb : refName b = some (rename name)) :
      Alike rename .schema (.obj a) (.obj b)
  | keywords {a b : Fields} (ha : (Entries.keys a).Nodup) (hb : (Entries.keys b).Nodup)
      (hra : refName a = none) (hrb : refName b = none)
      (hkeys : ∀ key, annotates key = false → (Entries.get? key a = none ↔ Entries.get? key b = none))
      (hplain : ∀ key v w, annotates key = false → position key = .plain → Entries.get? key a = some v →
        Entries.get? key b = some w → PlainAlike key v w)
      (hschema : ∀ key v w, annotates key = false → position key ≠ .plain → Entries.get? key a = some v →
        Entries.get? key b = some w → Alike rename (position key) v w) :
      Alike rename .schema (.obj a) (.obj b)
  | properties {a b : Fields} (ha : (Entries.keys a).Nodup) (hb : (Entries.keys b).Nodup)
      (hkeys : ∀ key, Entries.get? key a = none ↔ Entries.get? key b = none)
      (h : ∀ key v w, Entries.get? key a = some v → Entries.get? key b = some w → Alike rename .schema v w) :
      Alike rename .properties (.obj a) (.obj b)
  | branches {a b : List Json} (hlength : a.length = b.length)
      (h : ∀ pair ∈ a.zip b, Alike rename .schema pair.1 pair.2) : Alike rename .branches (.arr a) (.arr b)

end Schemas

section Keywords

variable [UnicodeData]

def plainShape (key : Str) (value : Json) : Option Shape :=
  match plainKeyword key value with
  | .ok kept => kept.map .value
  | .error error => some (.failed error)

theorem readPlain_eq (key : Str) (value : Json) :
    readPlain key value = (plainShape key value).toList.map fun shape => (key, shape) := by
  unfold readPlain plainShape
  cases plainKeyword key value with
  | error error => rfl
  | ok kept => cases kept <;> rfl

-- What one keyword is read as, if it stays.
def readKeyword (key : Str) (value : Json) : Option Shape :=
  if annotates key = true ∨ (key, value) = emptyProperties then none
  else if position key = .plain then plainShape key value
  else some (read (position key) value)

theorem get?_readKeywords {schema : Fields} (hnodup : (Entries.keys schema).Nodup) (key : Str) :
    Entries.get? key (readKeywords schema) = (Entries.get? key schema).bind (readKeyword key) := by
  induction schema with
  | nil => rfl
  | cons keyword rest ih =>
      obtain ⟨other, value⟩ := keyword
      rw [Entries.keys_cons, List.nodup_cons] at hnodup
      have hrest := ih hnodup.2
      have habsent : other = key → Entries.get? key (readKeywords rest) = none := by
        rintro rfl
        rw [Entries.get?_eq_none_iff]
        exact fun hkey => hnodup.1 ((keys_readKeywords rest).subset hkey)
      rw [Entries.get?_cons]
      by_cases hskip : annotates other = true ∨ (other, value) = emptyProperties
      · rw [readKeywords_skip hskip]
        by_cases hkey : other = key
        · rw [if_pos hkey, habsent hkey, Option.bind_some, readKeyword, ← hkey, if_pos hskip]
        · rw [if_neg hkey, hrest]
      · have hkeep := hskip
        rw [not_or, Bool.not_eq_true] at hkeep
        by_cases hp : position other = .plain
        · rw [readKeywords_plain hkeep.1 hp, readPlain_eq, Entries.get?_append]
          by_cases hkey : other = key
          · rw [if_pos hkey, habsent hkey, Option.bind_some, readKeyword, ← hkey, if_neg hskip, if_pos hp]
            cases plainShape other value <;> simp
          · rw [if_neg hkey, hrest]
            cases plainShape other value <;> simp [hkey]
        · rw [readKeywords_schema hkeep.1 hkeep.2 hp, Entries.get?_cons]
          by_cases hkey : other = key
          · rw [if_pos hkey, if_pos hkey, Option.bind_some, readKeyword, ← hkey, if_neg hskip, if_neg hp]
          · rw [if_neg hkey, if_neg hkey, hrest]

theorem sortedBy_names {names names' : List Str} (hnames : ∀ name ∈ names, name.Encodable)
    (h : names.Perm names') : ∃ out, sortedBy utf16Key (names.map Json.str) = .ok out ∧
      sortedBy utf16Key (names'.map Json.str) = .ok out := by
  have hkey {name : Str} (hname : name ∈ names) : utf16Key (.str name) = .ok name.utf16 :=
    if_pos (hnames name hname)
  have hkeys : ∀ item ∈ names.map Json.str, ∃ key, utf16Key item = .ok key := by
    intro item hitem
    obtain ⟨name, hname, rfl⟩ := List.mem_map.mp hitem
    exact ⟨_, hkey hname⟩
  have hsame := sortedBy_eq_of_perm (h.map Json.str) hkeys (by
    intro x hx y hy hxy
    obtain ⟨name, hname, rfl⟩ := List.mem_map.mp hx
    obtain ⟨other, hother, rfl⟩ := List.mem_map.mp hy
    rw [hkey hname, hkey hother] at hxy
    rw [Str.utf16_inj (hnames name hname) (hnames other hother) (Except.ok.inj hxy)])
  obtain ⟨out, hout⟩ := sortedBy_ok hkeys
  exact ⟨out, hout, hsame ▸ hout⟩

theorem plainKeyword_required {names names' : List Str} (hnames : ∀ name ∈ names, name.Encodable)
    (h : names.Perm names') : ∃ kept, plainKeyword "required" (.arr (names.map .str)) = .ok kept ∧
      plainKeyword "required" (.arr (names'.map .str)) = .ok kept := by
  obtain ⟨out, hout, hout'⟩ := sortedBy_names hnames h
  by_cases hempty : names = []
  · subst hempty
    obtain rfl := h.nil_eq
    exact ⟨none, rfl, rfl⟩
  · have hempty' : names' ≠ [] := by
      rintro rfl
      exact hempty h.eq_nil
    refine ⟨some (.arr out), ?_, ?_⟩
    · simp only [plainKeyword, if_true, List.map_eq_nil_iff, hempty, if_false, hout]
      rfl
    · simp only [plainKeyword, if_true, List.map_eq_nil_iff, hempty', if_false, hout']
      rfl

-- Such keywords stay together, with one canonical form.
theorem plainShape_alike {rename : Str → Str} {key : Str} {v w : Json} (h : PlainAlike key v w) :
    (plainShape key v = none ↔ plainShape key w = none) ∧ ∀ s t, plainShape key v = some s →
      plainShape key w = some t → Shape.Alike rename s t := by
  cases h with
  | same h =>
      refine ⟨Iff.rfl, ?_⟩
      intro s t hs ht
      rw [hs] at ht
      cases ht
      have hok : ∃ kept, plainKeyword key v = .ok kept := by
        cases v with
        | arr items =>
            have hkey : key ≠ "required" := fun hkey => h hkey items rfl
            refine ⟨some (.arr items), ?_⟩
            simp only [plainKeyword, hkey, if_false]
        | obj fields => exact ⟨_, rfl⟩
        | null | bool _ | int _ | float _ | str _ => exact ⟨_, rfl⟩
      obtain ⟨kept, hkept⟩ := hok
      rw [plainShape, hkept] at hs
      obtain ⟨value, -, rfl⟩ := Option.map_eq_some_iff.mp hs
      exact .value rfl
  | required hnames h =>
      obtain ⟨kept, hv, hw⟩ := plainKeyword_required hnames h
      rw [plainShape, plainShape, hv, hw]
      refine ⟨Iff.rfl, ?_⟩
      intro s t hs ht
      rw [hs] at ht
      cases ht
      obtain ⟨value, -, rfl⟩ := Option.map_eq_some_iff.mp hs
      exact .value rfl
  | @discriminator a b h =>
      have hsame : plainShape "discriminator" (.obj a) = plainShape "discriminator" (.obj b) := by
        simp only [plainShape, plainKeyword, if_true, h]
      rw [hsame]
      refine ⟨Iff.rfl, ?_⟩
      rintro s t ⟨⟩ ⟨⟩
      exact .value rfl

end Keywords

section Reading

variable {rename : Str → Str}

theorem refName_alike {a b : Json} (h : Alike rename .schema a b) :
    (∃ v, a = v ∧ b = v ∧ ∀ fields, v ≠ .obj fields) ∨
      ∃ fields fields', a = .obj fields ∧ b = .obj fields' ∧ refName fields' = (refName fields).map rename := by
  cases h with
  | value h => exact .inl ⟨a, rfl, rfl, h⟩
  | reference ha hb => exact .inr ⟨_, _, rfl, rfl, by rw [ha, hb, Option.map_some]⟩
  | keywords _ _ hra hrb => exact .inr ⟨_, _, rfl, rfl, by rw [hra, hrb, Option.map_none]⟩

def wrappedOf (value : Json) : Option Str :=
  match value with
  | .arr [.obj member] => refName member
  | _ => none

theorem wrappedOf_alike {v w : Json} (h : Alike rename .branches v w) :
    wrappedOf w = (wrappedOf v).map rename := by
  cases h with
  | value h =>
      cases v with
      | arr items => exact absurd rfl (h items)
      | null | bool _ | int _ | float _ | str _ | obj _ => rfl
  | @branches a b hlength h =>
      match a, b, hlength with
      | [], [], _ => rfl
      | [x], [y], _ =>
          have hxy : Alike rename .schema x y := h (x, y) (by simp)
          rcases refName_alike hxy with ⟨v, rfl, rfl, hv⟩ | ⟨fields, fields', rfl, rfl, hname⟩
          · cases y with
            | obj fields => exact absurd rfl (hv fields)
            | null | bool _ | int _ | float _ | str _ | arr _ => rfl
          · exact hname
      | _ :: _ :: _, _ :: _ :: _, _ => simp [wrappedOf]

theorem wrappedName_eq (fields : Fields) : wrappedName fields = wrappedOf (Json.getField fields "allOf") := by
  unfold wrappedName wrappedOf
  cases Json.getField fields "allOf" with
  | arr items =>
      match items with
      | [] => rfl
      | [item] => cases item <;> rfl
      | _ :: _ :: _ => rfl
  | null | bool _ | int _ | float _ | str _ | obj _ => rfl

section Objects

variable {a b : Fields} (ha : (Entries.keys a).Nodup) (hb : (Entries.keys b).Nodup)
  (hkeys : ∀ key, annotates key = false → (Entries.get? key a = none ↔ Entries.get? key b = none))
  (hplain : ∀ key v w, annotates key = false → position key = .plain → Entries.get? key a = some v →
    Entries.get? key b = some w → PlainAlike key v w)
  (hschema : ∀ key v w, annotates key = false → position key ≠ .plain → Entries.get? key a = some v →
    Entries.get? key b = some w → Alike rename (position key) v w)

include hkeys hplain in
theorem nullable_alike : Json.getField b "nullable" = .bool true ↔ Json.getField a "nullable" = .bool true := by
  have hkey := hkeys "nullable" (by decide)
  unfold Json.getField
  cases hv : Entries.get? ("nullable" : Str) a with
  | none => rw [hkey.mp hv]
  | some v =>
      cases hw : Entries.get? ("nullable" : Str) b with
      | none => exact absurd (hkey.mpr hw) (by simp [hv])
      | some w =>
          have hvw := hplain "nullable" v w (by decide) (by decide) hv hw
          generalize hname : ("nullable" : Str) = key at hvw
          cases hvw with
          | same _ => rfl
          | required _ _ => exact absurd hname (by decide)
          | discriminator _ => exact absurd hname (by decide)

include hkeys hschema in
theorem wrappedName_alike : wrappedName b = (wrappedName a).map rename := by
  have hkey := hkeys "allOf" (by decide)
  rw [wrappedName_eq, wrappedName_eq]
  unfold Json.getField
  cases hv : Entries.get? ("allOf" : Str) a with
  | none =>
      rw [hkey.mp hv]
      rfl
  | some v =>
      cases hw : Entries.get? ("allOf" : Str) b with
      | none => exact absurd (hkey.mpr hw) (by simp [hv])
      | some w => exact wrappedOf_alike (hschema "allOf" v w (by decide) (by decide) hv hw)

end Objects

theorem eq_nil_of_get? {α : Type} {entries : List (Str × α)} (h : ∀ key, Entries.get? key entries = none) :
    entries = [] := by
  cases entries with
  | nil => rfl
  | cons entry rest =>
      obtain ⟨key, value⟩ := entry
      have hkey := h key
      rw [Entries.get?_cons, if_pos rfl] at hkey
      cases hkey

theorem mem_keys_iff_get? {α : Type} {entries : List (Str × α)} {key : Str} :
    key ∈ Entries.keys entries ↔ Entries.get? key entries ≠ none := by
  rw [ne_eq, Entries.get?_eq_none_iff, not_not]

theorem emptyProperties_alike {key : Str} {v w : Json} (h : Alike rename (position key) v w) :
    (key, v) = emptyProperties ↔ (key, w) = emptyProperties := by
  have hempty {value : Json} : (key, value) = emptyProperties ↔ key = "properties" ∧ value = .obj [] := by
    rw [emptyProperties, Prod.mk.injEq]
  rw [hempty, hempty]
  apply and_congr_right
  intro hkey
  have hpos : position key = .properties := by
    rw [hkey]
    decide
  rw [hpos] at h
  cases h with
  | value _ => exact Iff.rfl
  | @properties a b _ _ hkeys _ =>
      constructor
      · rintro ⟨⟩
        rw [eq_nil_of_get? fun key => (hkeys key).mp rfl]
      · rintro ⟨⟩
        rw [eq_nil_of_get? fun key => (hkeys key).mpr rfl]

variable [UnicodeData]

theorem readKeyword_skip {key : Str} {value : Json} (h : annotates key = true ∨ (key, value) = emptyProperties) :
    readKeyword key value = none := if_pos h

theorem readKeyword_stays {key : Str} {value : Json}
    (h : ¬(annotates key = true ∨ (key, value) = emptyProperties)) : readKeyword key value =
      if position key = .plain then plainShape key value else some (read (position key) value) := if_neg h

theorem readKeyword_schema {key : Str} {v w : Json} (hp : position key ≠ .plain)
    (h : Alike rename (position key) v w) (hread : Shape.Alike rename (read (position key) v) (read (position key) w)) :
    (readKeyword key v = none ↔ readKeyword key w = none) ∧ ∀ s t, readKeyword key v = some s →
      readKeyword key w = some t → Shape.Alike rename s t := by
  have hempty := emptyProperties_alike h
  by_cases hskip : annotates key = true ∨ (key, v) = emptyProperties
  · rw [readKeyword_skip hskip, readKeyword_skip (hskip.imp_right hempty.mp)]
    simp
  · have hskip' : ¬(annotates key = true ∨ (key, w) = emptyProperties) :=
      fun hw => hskip (hw.imp_right hempty.mpr)
    rw [readKeyword_stays hskip, readKeyword_stays hskip', if_neg hp, if_neg hp]
    refine ⟨by simp, ?_⟩
    rintro s t ⟨⟩ ⟨⟩
    exact hread

theorem readKeyword_plain {key : Str} {v w : Json} (hp : position key = .plain) (h : PlainAlike key v w) :
    (readKeyword key v = none ↔ readKeyword key w = none) ∧ ∀ s t, readKeyword key v = some s →
      readKeyword key w = some t → Shape.Alike rename s t := by
  have hne {value : Json} : (key, value) ≠ emptyProperties :=
    fun he => position_properties hp (congrArg Prod.fst he)
  cases ha : annotates key with
  | true =>
      rw [readKeyword_skip (.inl ha), readKeyword_skip (.inl ha)]
      simp
  | false =>
      have hstays {value : Json} : ¬(annotates key = true ∨ (key, value) = emptyProperties) := by
        simp [ha, hne]
      rw [readKeyword_stays hstays, readKeyword_stays hstays, if_pos hp, if_pos hp]
      exact plainShape_alike h

section Objects

variable {a b : Fields} (ha : (Entries.keys a).Nodup) (hb : (Entries.keys b).Nodup)
  (hkeys : ∀ key, annotates key = false → (Entries.get? key a = none ↔ Entries.get? key b = none))
  (hkeyword : ∀ key v w, annotates key = false → Entries.get? key a = some v → Entries.get? key b = some w →
    (readKeyword key v = none ↔ readKeyword key w = none) ∧ ∀ s t, readKeyword key v = some s →
      readKeyword key w = some t → Shape.Alike rename s t)

include ha hb hkeys hkeyword in
theorem readKeywords_alike (key : Str) :
    (Entries.get? key (readKeywords a) = none ↔ Entries.get? key (readKeywords b) = none) ∧
      ∀ s t, Entries.get? key (readKeywords a) = some s → Entries.get? key (readKeywords b) = some t →
        Shape.Alike rename s t := by
  rw [get?_readKeywords ha, get?_readKeywords hb]
  cases hannotates : annotates key with
  | true =>
      have hnone {entries : Fields} : (Entries.get? key entries).bind (readKeyword key) = none := by
        cases Entries.get? key entries with
        | none => rfl
        | some value => exact readKeyword_skip (.inl hannotates)
      rw [hnone, hnone]
      simp
  | false =>
      cases hv : Entries.get? key a with
      | none =>
          rw [(hkeys key hannotates).mp hv]
          simp
      | some v =>
          cases hw : Entries.get? key b with
          | none => exact absurd ((hkeys key hannotates).mpr hw) (by simp [hv])
          | some w => exact hkeyword key v w hannotates hv hw

end Objects

-- Schemas that are alike are read alike.
theorem read_alike {pos : Position} {a b : Json} (h : Alike rename pos a b) :
    Shape.Alike rename (read pos a) (read pos b) := by
  induction h with
  | @value pos v h =>
      have hread : read pos v = .value v := by
        cases pos with
        | branches =>
            cases v with
            | arr items => exact absurd rfl (h items)
            | null | bool _ | int _ | float _ | str _ | obj _ => rfl
        | schema | properties | plain =>
            cases v with
            | obj fields => exact absurd rfl (h fields)
            | null | bool _ | int _ | float _ | str _ | arr _ => rfl
      rw [hread]
      exact .value rfl
  | reference ha hb =>
      simp only [read, ha, hb]
      exact .ref _
  | @keywords a b ha hb hra hrb hkeys hplain hschema ih =>
      have hkeyword : ∀ key v w, annotates key = false → Entries.get? key a = some v →
          Entries.get? key b = some w → (readKeyword key v = none ↔ readKeyword key w = none) ∧
            ∀ s t, readKeyword key v = some s → readKeyword key w = some t → Shape.Alike rename s t := by
        intro key v w hannotates hv hw
        by_cases hp : position key = .plain
        · exact readKeyword_plain hp (hplain key v w hannotates hp hv hw)
        · exact readKeyword_schema hp (hschema key v w hannotates hp hv hw) (ih key v w hannotates hp hv hw)
      have hall := readKeywords_alike ha hb hkeys hkeyword
      have hstay : (Entries.keys (readKeywords b)).all (fun key => decide (key ∈ nullableKeywords)) =
          (Entries.keys (readKeywords a)).all fun key => decide (key ∈ nullableKeywords) := by
        rw [Bool.eq_iff_iff, List.all_eq_true, List.all_eq_true]
        simp only [mem_keys_iff_get?, ne_eq, (hall _).1]
      have hwraps : wraps b (readKeywords b) = (wraps a (readKeywords a)).map rename := by
        unfold wraps
        have hnullable : decide (Json.getField b "nullable" = .bool true) =
            decide (Json.getField a "nullable" = .bool true) := decide_eq_decide.mpr (nullable_alike hkeys hplain)
        rw [wrappedName_alike hkeys hschema, hstay, hnullable]
        cases wrappedName a with
        | none => rfl
        | some name =>
            rw [Option.map_some, Option.filter_some, Option.filter_some]
            split <;> rfl
      simp only [read, hra, hrb, hwraps]
      exact .node ((keys_readKeywords a).nodup ha) ((keys_readKeywords b).nodup hb)
        (fun key => (hall key).1) (fun key => (hall key).2)
  | @properties a b ha hb hkeys _ ih =>
      simp only [read, readMembers_eq]
      refine .properties (by simpa using ha) (by simpa using hb) ?_ ?_
      · intro key
        rw [Entries.get?_mapValues, Entries.get?_mapValues, Option.map_eq_none_iff, Option.map_eq_none_iff]
        exact hkeys key
      · intro key s t hs ht
        rw [Entries.get?_mapValues] at hs ht
        obtain ⟨v, hv, rfl⟩ := Option.map_eq_some_iff.mp hs
        obtain ⟨w, hw, rfl⟩ := Option.map_eq_some_iff.mp ht
        exact ih key v w hv hw
  | @branches a b hlength _ ih =>
      simp only [read, readBranches_eq]
      refine .branches (by simpa using hlength) ?_
      intro pair hpair
      rw [List.zip_map, List.mem_map] at hpair
      obtain ⟨items, hitems, rfl⟩ := hpair
      exact ih items hitems

end Reading

section Catalogues

variable {rename : Str → Str} {catalogue catalogue' : Fields}

-- Catalogues whose components are alike, each under its new name.
structure CataloguesAlike (rename : Str → Str) (catalogue catalogue' : Fields) : Prop where
  keys : ∀ name, Entries.get? name catalogue = none ↔ Entries.get? (rename name) catalogue' = none
  components : ∀ name v w, Entries.get? name catalogue = some v → Entries.get? (rename name) catalogue' = some w →
    Alike rename .schema v w

theorem alike_empty : Alike rename .schema (.obj []) (.obj []) := by
  refine .keywords List.nodup_nil List.nodup_nil rfl rfl (by simp) ?_ ?_
  · intro key v w _ _ hv
    cases hv
  · intro key v w _ _ hv
    cases hv

theorem component_alike (h : CataloguesAlike rename catalogue catalogue') (name : Str) :
    Alike rename .schema (component catalogue name) (component catalogue' (rename name)) := by
  unfold component
  cases hv : Entries.get? name catalogue with
  | none =>
      rw [(h.keys name).mp hv]
      exact alike_empty
  | some v =>
      cases hw : Entries.get? (rename name) catalogue' with
      | none => exact absurd ((h.keys name).mpr hw) (by simp [hv])
      | some w => exact h.components name v w hv hw

variable [UnicodeData]

-- Schemas that are alike have one normalization, over catalogues that are alike.
theorem normalize_alike (hrename : Function.Injective rename) (h : CataloguesAlike rename catalogue catalogue')
    {expanding : List Str} {a b : Json} (hab : Alike rename .schema a b) :
    Agree (normalize catalogue expanding a) (normalize catalogue' (expanding.map rename) b) := by
  induction expanding using expansion_induct catalogue generalizing a b with
  | step expanding ih =>
      rw [normalize_eq_unfold, normalize_eq_unfold]
      apply Shape.unfold_alike hrename _ (read_alike hab)
      intro name hname
      by_cases hkey : name ∈ Entries.keys catalogue
      · exact ih name hkey hname (component_alike h name)
      · have hnone := (Entries.get?_eq_none_iff name catalogue).mpr hkey
        have hkey' := (Entries.get?_eq_none_iff _ _).mp ((h.keys name).mp hnone)
        rw [component_dangling hkey, component_dangling hkey']
        exact ⟨_, _, normalizeWithin_open _ _, normalizeWithin_open _ _, rfl⟩

end Catalogues

end Benzene.Contract
