import Mathlib.Data.List.Basic
import Mathlib.Data.List.Nodup

namespace Benzene.Data

-- Insertion-ordered association lists, oldest key first. A key that occurs
-- twice is read at its first place.
namespace Entries

section Lookup

variable {κ α β : Type*}

def keys (entries : List (κ × α)) : List κ :=
  entries.map Prod.fst

@[simp] theorem keys_nil : keys ([] : List (κ × α)) = [] := rfl

@[simp] theorem keys_cons (entry : κ × α) (rest : List (κ × α)) :
    keys (entry :: rest) = entry.1 :: keys rest := rfl

def mapValues (f : α → β) (entries : List (κ × α)) : List (κ × β) :=
  entries.map fun entry => (entry.1, f entry.2)

@[simp] theorem keys_mapValues (f : α → β) (entries : List (κ × α)) :
    keys (mapValues f entries) = keys entries := by
  simp [keys, mapValues]

variable [DecidableEq κ]

def get? (key : κ) : List (κ × α) → Option α
  | [] => none
  | (k, v) :: rest => if k = key then some v else get? key rest

-- Assignment keeps the place of a key that is there and appends a new one.
def set (key : κ) (value : α) : List (κ × α) → List (κ × α)
  | [] => [(key, value)]
  | (k, v) :: rest => if k = key then (key, value) :: rest else (k, v) :: set key value rest

def erase (key : κ) (entries : List (κ × α)) : List (κ × α) :=
  entries.filter fun entry => entry.1 ≠ key

def update (entries more : List (κ × α)) : List (κ × α) :=
  more.foldl (fun acc entry => set entry.1 entry.2 acc) entries

@[simp] theorem get?_nil (key : κ) : get? key ([] : List (κ × α)) = none := rfl

@[simp] theorem get?_cons (key k : κ) (v : α) (rest : List (κ × α)) :
    get? key ((k, v) :: rest) = if k = key then some v else get? key rest := rfl

theorem get?_eq_none_iff (key : κ) (entries : List (κ × α)) :
    get? key entries = none ↔ key ∉ keys entries := by
  induction entries with
  | nil => simp
  | cons entry rest ih =>
      obtain ⟨k, v⟩ := entry
      by_cases h : k = key
      · simp [h]
      · simp [h, ih, Ne.symm h]

theorem mem_of_get? {key : κ} {value : α} {entries : List (κ × α)}
    (h : get? key entries = some value) : (key, value) ∈ entries := by
  induction entries with
  | nil => simp at h
  | cons entry rest ih =>
      obtain ⟨k, v⟩ := entry
      by_cases hk : k = key
      · simp only [get?_cons, hk, ite_true, Option.some.injEq] at h
        simp [hk, h]
      · simp only [get?_cons, hk, ite_false] at h
        exact List.mem_cons_of_mem _ (ih h)

theorem get?_of_mem {key : κ} {value : α} {entries : List (κ × α)}
    (hnodup : (keys entries).Nodup) (h : (key, value) ∈ entries) :
    get? key entries = some value := by
  induction entries with
  | nil => simp at h
  | cons entry rest ih =>
      obtain ⟨k, v⟩ := entry
      rw [keys_cons, List.nodup_cons] at hnodup
      rcases List.mem_cons.mp h with heq | hmem
      · cases heq
        simp
      · have hne : k ≠ key := fun he => hnodup.1 (he ▸ List.mem_map.mpr ⟨_, hmem, rfl⟩)
        simp [hne, ih hnodup.2 hmem]

theorem get?_set (key other : κ) (value : α) (entries : List (κ × α)) :
    get? other (set key value entries) =
      if key = other then some value else get? other entries := by
  induction entries with
  | nil => simp [set]
  | cons entry rest ih =>
      obtain ⟨k, v⟩ := entry
      by_cases hk : k = key
      · subst hk
        by_cases ho : k = other <;> simp [set, ho]
      · simp only [set, hk, ite_false, get?_cons, ih]
        by_cases ho : k = other
        · have hne : key ≠ other := fun he => hk (ho.trans he.symm)
          simp [ho, hne]
        · simp [ho]

@[simp] theorem get?_set_self (key : κ) (value : α) (entries : List (κ × α)) :
    get? key (set key value entries) = some value := by
  simp [get?_set]

theorem keys_set (key : κ) (value : α) (entries : List (κ × α)) :
    keys (set key value entries) =
      if key ∈ keys entries then keys entries else keys entries ++ [key] := by
  induction entries with
  | nil => simp [set]
  | cons entry rest ih =>
      obtain ⟨k, v⟩ := entry
      by_cases hk : k = key
      · simp [set, hk]
      · simp only [set, hk, ite_false, keys_cons, ih, List.mem_cons, Ne.symm hk, false_or]
        split <;> simp

theorem mem_keys_set {key other : κ} {value : α} {entries : List (κ × α)} :
    other ∈ keys (set key value entries) ↔ other = key ∨ other ∈ keys entries := by
  rw [keys_set]
  split
  · rename_i h
    exact ⟨Or.inr, fun ho => ho.elim (fun he => he ▸ h) id⟩
  · simp [or_comm]

theorem nodup_keys_set {key : κ} {value : α} {entries : List (κ × α)}
    (h : (keys entries).Nodup) : (keys (set key value entries)).Nodup := by
  rw [keys_set]
  split
  · exact h
  · rename_i hk
    exact List.nodup_append.mpr ⟨h, List.nodup_singleton key, by
      intro a ha b hb
      rw [List.mem_singleton] at hb
      rintro rfl
      exact hk (hb ▸ ha)⟩

theorem mem_set {key : κ} {value : α} {entries : List (κ × α)} {entry : κ × α}
    (h : entry ∈ set key value entries) : entry = (key, value) ∨ entry ∈ entries := by
  induction entries with
  | nil => exact Or.inl (List.mem_singleton.mp h)
  | cons first rest ih =>
      obtain ⟨k, v⟩ := first
      by_cases hk : k = key
      · simp only [set, hk, ite_true, List.mem_cons] at h
        exact h.imp id fun hm => List.mem_cons_of_mem _ hm
      · simp only [set, hk, ite_false, List.mem_cons] at h
        rcases h with he | hm
        · exact Or.inr (he ▸ List.mem_cons_self)
        · exact (ih hm).imp id fun hm => List.mem_cons_of_mem _ hm

theorem set_eq_append {key : κ} {value : α} {entries : List (κ × α)}
    (h : key ∉ keys entries) : set key value entries = entries ++ [(key, value)] := by
  induction entries with
  | nil => rfl
  | cons entry rest ih =>
      obtain ⟨k, v⟩ := entry
      simp only [keys_cons, List.mem_cons, not_or] at h
      simp [set, Ne.symm h.1, ih h.2]

theorem get?_erase (key other : κ) (entries : List (κ × α)) :
    get? other (erase key entries) = if key = other then none else get? other entries := by
  induction entries with
  | nil => simp [erase]
  | cons entry rest ih =>
      obtain ⟨k, v⟩ := entry
      by_cases hk : k = key
      · have herase : erase key ((k, v) :: rest) = erase key rest := by simp [erase, hk]
        rw [herase, ih, get?_cons, hk]
        by_cases ho : key = other <;> simp [ho]
      · have herase : erase key ((k, v) :: rest) = (k, v) :: erase key rest := by simp [erase, hk]
        rw [herase, get?_cons, ih, get?_cons]
        by_cases ho : k = other
        · have hne : key ≠ other := fun he => hk (ho.trans he.symm)
          simp [ho, hne]
        · simp [ho]

theorem update_cons (entries more : List (κ × α)) (entry : κ × α) :
    update entries (entry :: more) = update (set entry.1 entry.2 entries) more := rfl

theorem nodup_keys_update (entries more : List (κ × α)) (h : (keys entries).Nodup) :
    (keys (update entries more)).Nodup := by
  induction more generalizing entries with
  | nil => exact h
  | cons entry more ih => exact ih _ (nodup_keys_set h)

theorem mem_keys_update {key : κ} {entries more : List (κ × α)} :
    key ∈ keys (update entries more) ↔ key ∈ keys entries ∨ key ∈ keys more := by
  induction more generalizing entries with
  | nil => simp [update, keys]
  | cons entry more ih =>
      obtain ⟨k, v⟩ := entry
      rw [update_cons, ih, mem_keys_set, keys_cons, List.mem_cons]
      tauto

-- Adding entries whose keys are new and distinct appends them in order, so a
-- dictionary built from its own entries is that dictionary.
theorem update_eq_append {entries more : List (κ × α)}
    (h : (keys (entries ++ more)).Nodup) : update entries more = entries ++ more := by
  induction more generalizing entries with
  | nil => simp [update]
  | cons entry more ih =>
      have hnew : entry.1 ∉ keys entries := by
        intro hm
        simp only [keys, List.map_append, List.map_cons] at h
        exact (List.nodup_append.mp h).2.2 _ hm _ List.mem_cons_self rfl
      rw [update_cons, set_eq_append hnew, ih (by simpa [keys] using h)]
      simp

theorem mem_update {entries more : List (κ × α)} {entry : κ × α} (h : entry ∈ update entries more) :
    entry ∈ entries ∨ entry ∈ more := by
  induction more generalizing entries with
  | nil => exact Or.inl h
  | cons first rest ih =>
      rcases ih h with hset | hrest
      · rcases mem_set hset with rfl | hold
        · exact Or.inr List.mem_cons_self
        · exact Or.inl hold
      · exact Or.inr (List.mem_cons_of_mem _ hrest)

theorem update_nil_of_nodup {entries : List (κ × α)} (h : (keys entries).Nodup) :
    update [] entries = entries := by
  exact @update_eq_append _ _ _ [] entries h

theorem get?_update_of_notMem (key : κ) (entries more : List (κ × α)) (h : key ∉ keys more) :
    get? key (update entries more) = get? key entries := by
  induction more generalizing entries with
  | nil => rfl
  | cons entry more ih =>
      simp only [keys_cons, List.mem_cons, not_or] at h
      rw [update_cons, ih _ h.2, get?_set]
      simp [Ne.symm h.1]

theorem get?_update (key : κ) (entries : List (κ × α)) {more : List (κ × α)}
    (h : (keys more).Nodup) :
    get? key (update entries more) = (get? key more).or (get? key entries) := by
  induction more generalizing entries with
  | nil => rfl
  | cons entry more ih =>
      obtain ⟨k, v⟩ := entry
      rw [keys_cons, List.nodup_cons] at h
      rw [update_cons, ih _ h.2, get?_set, get?_cons]
      by_cases hk : k = key
      · subst hk
        simp [(get?_eq_none_iff k more).mpr h.1]
      · simp [hk]

theorem get?_append (key : κ) (a b : List (κ × α)) :
    get? key (a ++ b) = (get? key a).or (get? key b) := by
  induction a with
  | nil => rfl
  | cons entry rest ih =>
      obtain ⟨k, v⟩ := entry
      rw [List.cons_append, get?_cons, get?_cons, ih]
      split <;> rfl

-- The last entry of a key is the one that is read afterwards.
theorem get?_update_reverse (key : κ) (entries more : List (κ × α)) :
    get? key (update entries more) = (get? key more.reverse).or (get? key entries) := by
  induction more generalizing entries with
  | nil => rfl
  | cons entry more ih =>
      obtain ⟨k, v⟩ := entry
      rw [update_cons, ih, get?_set, List.reverse_cons, get?_append]
      cases get? key more.reverse with
      | some value => rfl
      | none => by_cases hk : k = key <;> simp [hk]

theorem set_eq_map {key : κ} {value : α} {entries : List (κ × α)} (hnodup : (keys entries).Nodup)
    (h : key ∈ keys entries) :
    set key value entries = entries.map fun entry => if entry.1 = key then (entry.1, value) else entry := by
  induction entries with
  | nil => cases h
  | cons entry rest ih =>
      obtain ⟨k, v⟩ := entry
      rw [keys_cons, List.nodup_cons] at hnodup
      by_cases hk : k = key
      · subst hk
        have hrest : ∀ other ∈ rest, (if other.1 = k then (other.1, value) else other) = other := by
          intro other hother
          exact if_neg fun he => hnodup.1 (List.mem_map.mpr ⟨other, hother, he⟩)
        simp only [set, if_true, List.map_cons, List.map_congr_left hrest, List.map_id']
      · have hmem : key ∈ keys rest := (List.mem_cons.mp h).resolve_left (Ne.symm hk)
        simp only [set, hk, if_false, List.map_cons, ih hnodup.2 hmem]

theorem update_eq_filter {entries more : List (κ × α)} (hentries : (keys entries).Nodup) (h : (keys more).Nodup) :
    update entries more = entries.map (fun entry => (entry.1, (get? entry.1 more).getD entry.2)) ++
      more.filter fun entry => entry.1 ∉ keys entries := by
  induction more generalizing entries with
  | nil => simp [update]
  | cons entry more ih =>
      obtain ⟨k, v⟩ := entry
      rw [keys_cons, List.nodup_cons] at h
      have hnone : get? k more = none := (get?_eq_none_iff k more).mpr h.1
      rw [update_cons, ih (nodup_keys_set hentries) h.2]
      by_cases hk : k ∈ keys entries
      · rw [keys_set, if_pos hk, set_eq_map hentries hk, List.map_map, List.filter_cons_of_neg (by simpa using hk)]
        congr 1
        apply List.map_congr_left
        intro other _
        by_cases ho : other.1 = k
        · simp [ho, hnone]
        · simp [ho, Ne.symm ho]
      · have hfilter : (more.filter fun entry => entry.1 ∉ keys entries ++ [k]) =
            more.filter fun entry => entry.1 ∉ keys entries := by
          apply List.filter_congr
          intro other hother
          have hne : other.1 ≠ k := fun he => h.1 (List.mem_map.mpr ⟨other, hother, he⟩)
          simp [hne]
        have hkept : ∀ other ∈ entries, (other.1, (get? other.1 more).getD other.2) =
            (other.1, (get? other.1 ((k, v) :: more)).getD other.2) := by
          intro other hother
          have hne : k ≠ other.1 := fun he => hk (List.mem_map.mpr ⟨other, hother, he.symm⟩)
          rw [get?_cons, if_neg hne]
        rw [keys_set, if_neg hk, set_eq_append hk, hfilter, List.map_append, List.map_congr_left hkept,
          List.filter_cons_of_pos (by simpa using hk)]
        simp [hnone]

-- Entries take the places of those that are there, and the others are added after them.
theorem update_eq {entries more : List (κ × α)} (hentries : (keys entries).Nodup) (h : (keys more).Nodup) :
    ∃ added, update entries more =
        entries.map (fun entry => (entry.1, (get? entry.1 more).getD entry.2)) ++ added ∧
      added.Sublist more ∧ ∀ entry ∈ more, entry ∈ added ↔ entry.1 ∉ keys entries := by
  refine ⟨_, update_eq_filter hentries h, List.filter_sublist, ?_⟩
  intro entry hentry
  rw [List.mem_filter, decide_eq_true_eq]
  exact and_iff_right hentry

theorem get?_filter_of_pos (p : κ → Bool) {key : κ} (h : p key) (entries : List (κ × α)) :
    get? key (entries.filter fun entry => p entry.1) = get? key entries := by
  induction entries with
  | nil => rfl
  | cons entry rest ih =>
      obtain ⟨k, v⟩ := entry
      by_cases hk : k = key
      · subst hk
        simp [h]
      · by_cases hp : p k <;> simp [hp, hk, ih]

theorem get?_mapValues (f : α → β) (key : κ) (entries : List (κ × α)) :
    get? key (mapValues f entries) = (get? key entries).map f := by
  induction entries with
  | nil => rfl
  | cons entry rest ih =>
      obtain ⟨k, v⟩ := entry
      simp only [mapValues, List.map_cons, get?_cons] at ih ⊢
      by_cases hk : k = key
      · simp [hk]
      · simp [hk, ih]

-- The later of two assignments to a key counts.
theorem set_set (key : κ) (first second : α) (entries : List (κ × α)) :
    set key second (set key first entries) = set key second entries := by
  induction entries with
  | nil => simp [set]
  | cons entry rest ih =>
      obtain ⟨k, v⟩ := entry
      by_cases hk : k = key
      · simp [set, hk]
      · simp [set, hk, ih]

theorem set_mapValues (f : α → β) (key : κ) (value : α) (entries : List (κ × α)) :
    set key (f value) (mapValues f entries) = mapValues f (set key value entries) := by
  induction entries with
  | nil => rfl
  | cons entry rest ih =>
      obtain ⟨k, v⟩ := entry
      simp only [mapValues, List.map_cons, set] at ih ⊢
      split
      · rfl
      · rw [ih, List.map_cons]

theorem update_mapValues (f : α → β) (entries more : List (κ × α)) :
    update (mapValues f entries) (mapValues f more) = mapValues f (update entries more) := by
  induction more generalizing entries with
  | nil => rfl
  | cons entry more ih =>
      obtain ⟨k, v⟩ := entry
      have hset := set_mapValues f k v entries
      rw [update_cons, ← ih, ← hset]
      rfl

theorem get?_updated_mapValues (f : α → β) (key : κ) (entries : List (κ × α)) :
    get? key (update [] (mapValues f entries)) = (get? key (update [] entries)).map f := by
  rw [← get?_mapValues, ← update_mapValues]
  rfl

theorem set_comm {first second : κ} (hne : first ≠ second) (a b : α) {entries : List (κ × α)}
    (h : first ∈ keys entries) : set first a (set second b entries) = set second b (set first a entries) := by
  induction entries with
  | nil => cases h
  | cons entry rest ih =>
      obtain ⟨k, v⟩ := entry
      by_cases hfirst : k = first
      · subst hfirst
        simp [set, hne]
      · have hrest : first ∈ keys rest := (List.mem_cons.mp h).resolve_left fun heq => hfirst heq.symm
        by_cases hsecond : k = second
        · subst hsecond
          simp [set, hfirst]
        · simp [set, hfirst, hsecond, ih hrest]

end Lookup

section Related

variable {κ α β : Type*}

-- Entries with the same keys in the same order, whose values are related.
def Related (R : κ → α → β → Prop) : List (κ × α) → List (κ × β) → Prop :=
  List.Forall₂ fun v w => v.1 = w.1 ∧ R v.1 v.2 w.2

variable {R : κ → α → β → Prop} {a : List (κ × α)} {b : List (κ × β)}

theorem Related.keys_eq (h : Related R a b) : keys a = keys b := by
  induction h with
  | nil => rfl
  | cons hfirst _ ih => rw [keys_cons, keys_cons, hfirst.1, ih]

variable [DecidableEq κ]

theorem Related.get? (h : Related R a b) {key : κ} {v : α} {w : β} (hv : Entries.get? key a = some v)
    (hw : Entries.get? key b = some w) : R key v w := by
  induction h with
  | nil => cases hv
  | @cons first second _ _ hfirst _ ih =>
      obtain ⟨k, x⟩ := first
      obtain ⟨k', y⟩ := second
      obtain ⟨hkey, hrelated⟩ := hfirst
      change k = k' at hkey
      subst hkey
      rw [get?_cons] at hv hw
      by_cases hk : k = key
      · rw [if_pos hk] at hv hw
        cases hv
        cases hw
        subst hk
        exact hrelated
      · rw [if_neg hk] at hv hw
        exact ih hv hw

theorem Related.set (h : Related R a b) {key : κ} {v : α} {w : β} (hvalue : R key v w) :
    Related R (Entries.set key v a) (Entries.set key w b) := by
  induction h with
  | nil => exact .cons ⟨rfl, hvalue⟩ .nil
  | @cons first second _ _ hfirst hrest ih =>
      obtain ⟨k, x⟩ := first
      obtain ⟨k', y⟩ := second
      obtain ⟨hkey, hrelated⟩ := hfirst
      change k = k' at hkey
      subst hkey
      by_cases hk : k = key
      · simp only [Entries.set, hk, if_true]
        exact .cons ⟨rfl, hvalue⟩ hrest
      · simp only [Entries.set, hk, if_false]
        exact .cons ⟨rfl, hrelated⟩ ih

theorem Related.update {more : List (κ × α)} {more' : List (κ × β)} (h : Related R a b) (hmore : Related R more more') :
    Related R (Entries.update a more) (Entries.update b more') := by
  induction hmore generalizing a b with
  | nil => exact h
  | @cons first second _ _ hfirst _ ih =>
      obtain ⟨k, x⟩ := first
      obtain ⟨k', y⟩ := second
      obtain ⟨hkey, hrelated⟩ := hfirst
      change k = k' at hkey
      subst hkey
      rw [update_cons, update_cons]
      exact ih (h.set hrelated)

theorem Related.updated (h : Related R a b) : Related R (Entries.update [] a) (Entries.update [] b) :=
  Related.update .nil h

-- What stands under one key in three dictionaries, each of them related to the next.
theorem Related.through {γ : Type*} {S : κ → β → γ → Prop} {c : List (κ × γ)} (h : Related R a b) (h' : Related S b c)
    (hnodup : (keys c).Nodup) {key : κ} {v : α} {w : γ} (hv : Entries.get? key a = some v) (hw : (key, w) ∈ c) :
    ∃ u, R key v u ∧ S key u w := by
  have hget := get?_of_mem hnodup hw
  have hkey : key ∈ keys b := by
    rw [h'.keys_eq]
    exact List.mem_map_of_mem hw
  obtain ⟨u, hu⟩ : ∃ u, Entries.get? key b = some u := by
    rcases hnone : Entries.get? key b with _ | u
    · exact absurd hkey ((get?_eq_none_iff _ _).mp hnone)
    · exact ⟨u, rfl⟩
  exact ⟨u, h.get? hv hu, h'.get? hu hget⟩

end Related

end Entries

section Distinct

variable {κ : Type*} [DecidableEq κ]

def addNew (seen : List κ) (key : κ) : List κ :=
  if key ∈ seen then seen else seen ++ [key]

-- The keys in the order of their first occurrence, each once.
def distinct (keys : List κ) : List κ := keys.foldl addNew []

theorem mem_foldl_addNew {seen keys : List κ} {key : κ} :
    key ∈ keys.foldl addNew seen ↔ key ∈ seen ∨ key ∈ keys := by
  induction keys generalizing seen with
  | nil => simp
  | cons first rest ih =>
      rw [List.foldl_cons, ih, addNew]
      split
      · rename_i hmem
        simp only [List.mem_cons]
        exact ⟨Or.imp id Or.inr, fun h => h.elim Or.inl
          fun h => h.elim (fun he => Or.inl (he ▸ hmem)) Or.inr⟩
      · simp [or_assoc]

@[simp] theorem mem_distinct {keys : List κ} {key : κ} : key ∈ distinct keys ↔ key ∈ keys := by
  simp [distinct, mem_foldl_addNew]

theorem nodup_foldl_addNew {seen : List κ} (h : seen.Nodup) (keys : List κ) :
    (keys.foldl addNew seen).Nodup := by
  induction keys generalizing seen with
  | nil => exact h
  | cons first rest ih =>
      refine ih ?_
      rw [addNew]
      split
      · exact h
      · rename_i hnew
        exact h.append (List.nodup_singleton first) (List.disjoint_singleton.mpr hnew)

theorem nodup_distinct (keys : List κ) : (distinct keys).Nodup := nodup_foldl_addNew List.nodup_nil keys

end Distinct

-- A dictionary: association entries whose keys are distinct.
structure Dict (κ α : Type*) where
  entries : List (κ × α)
  nodup : (Entries.keys entries).Nodup
deriving DecidableEq

namespace Dict

section Operations

variable {κ α β : Type*}

@[ext] theorem ext {d e : Dict κ α} (h : d.entries = e.entries) : d = e := by
  cases d
  cases e
  cases h
  rfl

def empty : Dict κ α := ⟨[], List.nodup_nil⟩

instance : Inhabited (Dict κ α) := ⟨empty⟩

def keys (d : Dict κ α) : List κ := Entries.keys d.entries

def values (d : Dict κ α) : List α := d.entries.map Prod.snd

@[simp] theorem entries_empty : (empty : Dict κ α).entries = [] := rfl

@[simp] theorem values_empty : (empty : Dict κ α).values = [] := rfl

variable [DecidableEq κ]

def get? (d : Dict κ α) (key : κ) : Option α := Entries.get? key d.entries

def set (d : Dict κ α) (key : κ) (value : α) : Dict κ α :=
  ⟨Entries.set key value d.entries, Entries.nodup_keys_set d.nodup⟩

def ofEntries (entries : List (κ × α)) : Dict κ α :=
  ⟨Entries.update [] entries, Entries.nodup_keys_update _ _ List.nodup_nil⟩

-- Without the entries of `keys`.
def without (d : Dict κ α) (keys : List κ) : Dict κ α :=
  ⟨d.entries.filter fun entry => entry.1 ∉ keys, d.nodup.sublist (List.filter_sublist.map _)⟩

@[simp] theorem get?_empty (key : κ) : (empty : Dict κ α).get? key = none := rfl

theorem get?_set (d : Dict κ α) (key other : κ) (value : α) :
    (d.set key value).get? other = if key = other then some value else d.get? other :=
  Entries.get?_set key other value d.entries

@[simp] theorem get?_set_self (d : Dict κ α) (key : κ) (value : α) :
    (d.set key value).get? key = some value := by
  simp [get?_set]

theorem get?_set_of_ne (d : Dict κ α) {key other : κ} (value : α) (h : key ≠ other) :
    (d.set key value).get? other = d.get? other := by
  simp [get?_set, h]

theorem get?_without (d : Dict κ α) (keys : List κ) (key : κ) :
    (d.without keys).get? key = if key ∈ keys then none else d.get? key := by
  by_cases hkey : key ∈ keys
  · rw [if_pos hkey, get?, Entries.get?_eq_none_iff]
    intro hmem
    obtain ⟨entry, hentry, rfl⟩ := List.mem_map.mp hmem
    have hkept := (List.mem_filter.mp hentry).2
    simp [hkey] at hkept
  · rw [if_neg hkey]
    exact Entries.get?_filter_of_pos (fun key => key ∉ keys) (by simpa using hkey) d.entries

theorem mem_entries_iff (d : Dict κ α) (key : κ) (value : α) :
    (key, value) ∈ d.entries ↔ d.get? key = some value :=
  ⟨Entries.get?_of_mem d.nodup, Entries.mem_of_get?⟩

theorem mem_keys_iff (d : Dict κ α) (key : κ) : key ∈ d.keys ↔ (d.get? key).isSome := by
  rw [← not_iff_not, Option.not_isSome_iff_eq_none]
  exact (Entries.get?_eq_none_iff key d.entries).symm

theorem ofEntries_entries (d : Dict κ α) : ofEntries d.entries = d :=
  ext (Entries.update_nil_of_nodup d.nodup)

theorem ofEntries_append_singleton (entries : List (κ × α)) (key : κ) (value : α) :
    ofEntries (entries ++ [(key, value)]) = (ofEntries entries).set key value := by
  refine ext ?_
  simp [ofEntries, set, Entries.update]

@[simp] theorem ofEntries_nil : ofEntries ([] : List (κ × α)) = empty := rfl

theorem ofEntries_eq_empty {entries : List (κ × α)} : ofEntries entries = empty ↔ entries = [] := by
  constructor
  · intro h
    cases List.eq_nil_or_concat entries with
    | inl hnil => exact hnil
    | inr hlast =>
        obtain ⟨init, last, rfl⟩ := hlast
        rw [List.concat_eq_append, ofEntries_append_singleton] at h
        have hget := congrArg (fun d => d.get? last.1) h
        rw [get?_set_self, get?_empty] at hget
        cases hget
  · rintro rfl
    rfl

theorem mem_values_of_get? {d : Dict κ α} {key : κ} {value : α} (h : d.get? key = some value) :
    value ∈ d.values :=
  List.mem_map.mpr ⟨_, Entries.mem_of_get? h, rfl⟩

end Operations

end Dict

end Benzene.Data
