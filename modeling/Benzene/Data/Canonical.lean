import Benzene.Data.Json
import Mathlib.Data.List.Lex

namespace Benzene.Data

section Sorting

variable {α κ : Type} [LinearOrder κ]

-- `sorted(items, key=key)`, which is stable.
def sortOn (key : α → κ) (items : List α) : List α :=
  items.insertionSort fun a b => key a ≤ key b

theorem sortOn_perm (key : α → κ) (items : List α) : (sortOn key items).Perm items :=
  List.perm_insertionSort _ items

theorem sortOn_pairwise (key : α → κ) (items : List α) :
    (sortOn key items).Pairwise fun a b => key a ≤ key b := by
  have : IsTrans α fun a b => key a ≤ key b := ⟨fun _ _ _ => le_trans⟩
  have : Std.Total fun a b : α => key a ≤ key b := ⟨fun a b => le_total (key a) (key b)⟩
  exact List.pairwise_insertionSort _ items

-- Items are sorted as what stands for them with the same keys is.
theorem sortOn_map {β : Type} {key : α → κ} {key' : β → κ} {f : α → β} {items : List α}
    (h : ∀ item ∈ items, key item = key' (f item)) :
    (sortOn key items).map f = sortOn key' (items.map f) := by
  unfold sortOn
  apply List.map_insertionSort
  intro a ha b hb
  rw [h a ha, h b hb]

-- Items with different keys are sorted to one list, whatever order they come in.
theorem sortOn_eq_of_perm {key : α → κ} {a b : List α} (h : a.Perm b)
    (hkeys : ∀ x ∈ a, ∀ y ∈ a, key x = key y → x = y) : sortOn key a = sortOn key b := by
  have hperm : (sortOn key a).Perm (sortOn key b) :=
    (sortOn_perm key a).trans (h.trans (sortOn_perm key b).symm)
  apply hperm.eq_of_pairwise _ (sortOn_pairwise key a) (sortOn_pairwise key b)
  intro x y hx hy hxy hyx
  have hxa := (sortOn_perm key a).mem_iff.mp hx
  have hya := h.mem_iff.mpr ((sortOn_perm key b).mem_iff.mp hy)
  exact hkeys x hxa y hya (le_antisymm hxy hyx)

end Sorting

namespace Entries

variable {κ α : Type}

theorem get?_orderedInsert [DecidableEq κ] [LinearOrder κ] (key : κ) (entry : κ × α) (entries : List (κ × α)) :
    get? key (entries.orderedInsert (fun a b => a.1 ≤ b.1) entry) = get? key (entry :: entries) := by
  induction entries with
  | nil => rfl
  | cons first rest ih =>
      rw [List.orderedInsert_cons]
      split
      · rfl
      · rename_i hle
        obtain ⟨k, v⟩ := entry
        obtain ⟨other, w⟩ := first
        rw [get?_cons, ih, get?_cons, get?_cons, get?_cons]
        by_cases hother : other = key
        · subst hother
          rw [if_pos rfl, if_pos rfl, if_neg fun heq => hle (le_of_eq heq)]
        · rw [if_neg hother, if_neg hother]

-- The first entry of a key stays the first.
theorem get?_sortOn [DecidableEq κ] [LinearOrder κ] (key : κ) (entries : List (κ × α)) :
    get? key (sortOn Prod.fst entries) = get? key entries := by
  induction entries with
  | nil => rfl
  | cons entry rest ih =>
      obtain ⟨k, v⟩ := entry
      unfold sortOn at ih ⊢
      rw [List.insertionSort_cons, get?_orderedInsert, get?_cons, get?_cons, ih]

-- Entries with the same keys in the same order agree once they are a permutation.
theorem eq_of_perm_of_keys {a b : List (κ × α)} (hkeys : keys a = keys b) (hnodup : (keys a).Nodup)
    (h : a.Perm b) : a = b := by
  induction a generalizing b with
  | nil => exact (h.nil_eq)
  | cons entry rest ih =>
      cases b with
      | nil => cases hkeys
      | cons other more =>
          obtain ⟨key, value⟩ := entry
          obtain ⟨key', value'⟩ := other
          simp only [keys_cons, List.cons.injEq] at hkeys
          obtain ⟨rfl, htail⟩ := hkeys
          rw [keys_cons, List.nodup_cons] at hnodup
          have hmem : (key, value) ∈ (key, value') :: more := h.mem_iff.mp List.mem_cons_self
          have hvalue : value = value' := by
            rcases List.mem_cons.mp hmem with he | hm
            · exact (Prod.mk.inj he).2
            · have hkey : key ∈ keys more := List.mem_map_of_mem hm
              rw [← htail] at hkey
              exact absurd hkey hnodup.1
          subst hvalue
          rw [ih htail hnodup.2 h.cons_inv]

end Entries

namespace Json

section Canonical

mutual

-- The value with the members of every object in one order. Two values have one
-- canonical form when they differ in the order of members only.
def canonical : Json → Json
  | .arr items => .arr (canonicalItems items)
  | .obj fields => .obj (sortOn Prod.fst (canonicalFields fields))
  | x => x

def canonicalItems : List Json → List Json
  | [] => []
  | item :: rest => canonical item :: canonicalItems rest

def canonicalFields : Fields → Fields
  | [] => []
  | (key, value) :: rest => (key, canonical value) :: canonicalFields rest

end

theorem canonicalItems_eq (items : List Json) : canonicalItems items = items.map canonical := by
  induction items with
  | nil => rfl
  | cons item rest ih => simp [canonicalItems, ih]

theorem canonicalFields_eq (fields : Fields) : canonicalFields fields = Entries.mapValues canonical fields := by
  induction fields with
  | nil => rfl
  | cons field rest ih => simp [canonicalFields, ih, Entries.mapValues]

theorem canonical_arr (items : List Json) : canonical (.arr items) = .arr (items.map canonical) := by
  rw [canonical, canonicalItems_eq]

theorem canonical_obj (fields : Fields) :
    canonical (.obj fields) = .obj (sortOn Prod.fst (Entries.mapValues canonical fields)) := by
  rw [canonical, canonicalFields_eq]

-- Members with one sequence of keys have one canonical form only if their values have.
theorem canonical_obj_inj {a b : Fields} (hkeys : Entries.keys a = Entries.keys b)
    (hnodup : (Entries.keys a).Nodup) (h : canonical (.obj a) = canonical (.obj b)) :
    Entries.mapValues canonical a = Entries.mapValues canonical b := by
  rw [canonical_obj, canonical_obj] at h
  have hsorted := Json.obj.inj h
  have hperm : (Entries.mapValues canonical a).Perm (Entries.mapValues canonical b) :=
    (sortOn_perm Prod.fst _).symm.trans (hsorted ▸ sortOn_perm Prod.fst _)
  apply Entries.eq_of_perm_of_keys _ _ hperm
  · simpa using hkeys
  · simpa using hnodup

-- Members of one canonical form have the same values under each key.
theorem get?_of_canonical {a b : Fields} (h : canonical (.obj a) = canonical (.obj b)) (key : Str) :
    (Entries.get? key a).map canonical = (Entries.get? key b).map canonical := by
  rw [canonical_obj, canonical_obj] at h
  rw [← Entries.get?_mapValues, ← Entries.get?_mapValues, ← Entries.get?_sortOn key (Entries.mapValues canonical a),
    Json.obj.inj h, Entries.get?_sortOn]

-- Two values under one key, or under none, of one canonical form.
theorem canonical_of_get? {a b : Fields} (ha : (Entries.keys a).Nodup) (hb : (Entries.keys b).Nodup)
    (h : ∀ key, (Entries.get? key a).map canonical = (Entries.get? key b).map canonical) :
    canonical (.obj a) = canonical (.obj b) := by
  have ha' : (Entries.keys (Entries.mapValues canonical a)).Nodup := by simpa using ha
  have hb' : (Entries.keys (Entries.mapValues canonical b)).Nodup := by simpa using hb
  have hmem {x y : Fields} (hget : ∀ key, Entries.get? key x = Entries.get? key y)
      (hnodup : (Entries.keys x).Nodup) : ∀ entry ∈ x, entry ∈ y := by
    intro entry hentry
    have hfound := Entries.get?_of_mem hnodup hentry
    rw [hget] at hfound
    exact Entries.mem_of_get? hfound
  have hget : ∀ key, Entries.get? key (Entries.mapValues canonical a) =
      Entries.get? key (Entries.mapValues canonical b) := by
    intro key
    rw [Entries.get?_mapValues, Entries.get?_mapValues, h key]
  have hperm : (Entries.mapValues canonical a).Perm (Entries.mapValues canonical b) := by
    rw [List.perm_ext_iff_of_nodup (List.Nodup.of_map Prod.fst ha') (List.Nodup.of_map Prod.fst hb')]
    intro entry
    exact ⟨hmem hget ha' entry, hmem (fun key => (hget key).symm) hb' entry⟩
  rw [canonical_obj, canonical_obj, sortOn_eq_of_perm hperm]
  intro x hx y hy hkey
  have hvalue := Entries.get?_of_mem ha' hx
  rw [hkey, Entries.get?_of_mem ha' hy] at hvalue
  exact Prod.ext hkey (Option.some.inj hvalue).symm

end Canonical

section Distinct

mutual

-- A dictionary holds each key once.
def Distinct : Json → Prop
  | .arr items => DistinctItems items
  | .obj fields => (Entries.keys fields).Nodup ∧ DistinctFields fields
  | _ => True

def DistinctItems : List Json → Prop
  | [] => True
  | item :: rest => item.Distinct ∧ DistinctItems rest

def DistinctFields : Fields → Prop
  | [] => True
  | (_, value) :: rest => value.Distinct ∧ DistinctFields rest

end

theorem distinct_arr {items : List Json} : (Json.arr items).Distinct ↔ ∀ item ∈ items, item.Distinct := by
  rw [Distinct]
  induction items with
  | nil => simp [DistinctItems]
  | cons item rest ih => simp [DistinctItems, ih]

theorem distinctFields_iff {fields : Fields} :
    DistinctFields fields ↔ ∀ field ∈ fields, field.2.Distinct := by
  induction fields with
  | nil => simp [DistinctFields]
  | cons field rest ih => rw [DistinctFields, ih, List.forall_mem_cons]

theorem distinct_obj {fields : Fields} : (Json.obj fields).Distinct ↔
    (Entries.keys fields).Nodup ∧ ∀ field ∈ fields, field.2.Distinct := by
  rw [Distinct, distinctFields_iff]

theorem distinct_get? {fields : Fields} (h : (Json.obj fields).Distinct) {key : Str} {value : Json}
    (hget : Entries.get? key fields = some value) : value.Distinct :=
  (distinct_obj.mp h).2 (key, value) (Entries.mem_of_get? hget)

theorem distinct_getField {fields : Fields} (h : (Json.obj fields).Distinct) (key : Str) :
    (getField fields key).Distinct := by
  unfold getField
  cases hget : Entries.get? key fields with
  | none => simp [Distinct]
  | some value => exact distinct_get? h hget

theorem distinct_orElse {x y : Json} (hx : x.Distinct) (hy : y.Distinct) : (orElse x y).Distinct := by
  unfold orElse
  split
  · exact hx
  · exact hy

theorem distinct_iter {x : Json} (h : x.Distinct) {items : List Json} (hitems : x.iter = .ok items) :
    ∀ item ∈ items, item.Distinct := by
  cases x with
  | arr values =>
      cases hitems
      exact distinct_arr.mp h
  | obj fields =>
      cases hitems
      intro item hitem
      obtain ⟨field, -, rfl⟩ := List.mem_map.mp hitem
      trivial
  | str text =>
      cases hitems
      intro item hitem
      obtain ⟨c, -, rfl⟩ := List.mem_map.mp hitem
      trivial
  | null | bool _ | int _ | float _ => cases hitems

end Distinct

end Json

end Benzene.Data
