import Benzene.Contract.Normalize

namespace Benzene.Contract

open Benzene.Data

section Sorting

variable {α β κ ε : Type} {keyA : α → Except ε κ} {keyB : β → Except ε κ}

-- Lists with one sequence of keys, as one list of pairs with their key.
theorem keyed_pairs {as : List α} {bs : List β} (hkeys : List.Forall₂ (fun a b => keyA a = keyB b) as bs)
    {ka : List (κ × α)} {kb : List (κ × β)}
    (ha : List.Forall₂ (fun a k => (do return (← keyA a, a)) = (.ok k : Except ε (κ × α))) as ka)
    (hb : List.Forall₂ (fun b k => (do return (← keyB b, b)) = (.ok k : Except ε (κ × β))) bs kb) :
    ∃ pairs : List (κ × α × β), pairs.map (fun pair => pair.2.1) = as ∧
      pairs.map (fun pair => pair.2.2) = bs ∧ pairs.map (fun pair => (pair.1, pair.2.1)) = ka ∧
      pairs.map (fun pair => (pair.1, pair.2.2)) = kb := by
  induction hkeys generalizing ka kb with
  | nil =>
      cases ha
      cases hb
      exact ⟨[], rfl, rfl, rfl, rfl⟩
  | @cons a b _ _ hkey _ ih =>
      cases ha with
      | cons hka ha =>
          cases hb with
          | cons hkb hb =>
              obtain ⟨pairs, h⟩ := ih ha hb
              obtain ⟨key, hk, hka⟩ := Except.bind_eq_ok.mp hka
              obtain ⟨key', hk', hkb⟩ := Except.bind_eq_ok.mp hkb
              rw [hkey, hk'] at hk
              cases hk
              cases hka
              cases hkb
              exact ⟨(key, a, b) :: pairs, by simp [h]⟩

variable [LinearOrder κ]

-- Such lists are sorted in one way.
theorem sortedBy_pairs {as sa : List α} {bs sb : List β}
    (hkeys : List.Forall₂ (fun a b => keyA a = keyB b) as bs)
    (ha : sortedBy keyA as = .ok sa) (hb : sortedBy keyB bs = .ok sb) :
    ∃ pairs sorted : List (α × β), sorted.Perm pairs ∧ pairs.map Prod.fst = as ∧ pairs.map Prod.snd = bs ∧
      sorted.map Prod.fst = sa ∧ sorted.map Prod.snd = sb := by
  obtain ⟨ka, hka, ha⟩ := Except.bind_eq_ok.mp ha
  obtain ⟨kb, hkb, hb⟩ := Except.bind_eq_ok.mp hb
  obtain ⟨pairs, rfl, rfl, rfl, rfl⟩ :=
    keyed_pairs hkeys (Except.mapM_eq_ok.mp hka) (Except.mapM_eq_ok.mp hkb)
  cases ha
  cases hb
  refine ⟨pairs.map Prod.snd, (sortOn Prod.fst pairs).map Prod.snd, (sortOn_perm _ _).map _, ?_, ?_, ?_, ?_⟩
  · rw [List.map_map]
    rfl
  · rw [List.map_map]
    rfl
  · rw [← sortOn_map (f := fun pair : κ × α × β => (pair.1, pair.2.1)) fun _ _ => rfl, List.map_map,
      List.map_map]
    rfl
  · rw [← sortOn_map (f := fun pair : κ × α × β => (pair.1, pair.2.2)) fun _ _ => rfl, List.map_map,
      List.map_map]
    rfl

theorem sortedBy_perm {items out : List α}
    (h : sortedBy keyA items = .ok out) : out.Perm items := by
  obtain ⟨keyed, hkeyed, h⟩ := Except.bind_eq_ok.mp h
  cases h
  have hitems : keyed.map Prod.snd = items := by
    rw [Except.mapM_eq_ok] at hkeyed
    clear * - hkeyed
    induction hkeyed with
    | nil => rfl
    | cons hhead _ ih =>
        obtain ⟨_, -, hhead⟩ := Except.bind_eq_ok.mp hhead
        cases hhead
        rw [List.map_cons, ih]
  exact hitems ▸ (sortOn_perm Prod.fst keyed).map Prod.snd

theorem sortedBy_ok {items : List α} (h : ∀ item ∈ items, ∃ key, keyA item = .ok key) :
    ∃ out, sortedBy keyA items = .ok out := by
  obtain ⟨keyed, hkeyed⟩ : ∃ keyed, (items.mapM fun item => do return (← keyA item, item)) = .ok keyed := by
    induction items with
    | nil => exact ⟨[], rfl⟩
    | cons item rest ih =>
        obtain ⟨hitem, hrest⟩ := List.forall_mem_cons.mp h
        obtain ⟨key, hkey⟩ := hitem
        obtain ⟨keyed, hkeyed⟩ := ih hrest
        refine ⟨(key, item) :: keyed, ?_⟩
        rw [List.mapM_cons, hkeyed, hkey]
        rfl
  refine ⟨(sortOn Prod.fst keyed).map Prod.snd, ?_⟩
  unfold sortedBy
  rw [hkeyed]
  rfl

-- Items that are told apart by their keys are sorted to one list, whatever order they come in.
theorem sortedBy_eq_of_perm {a b : List α} (h : a.Perm b) (hkeys : ∀ item ∈ a, ∃ key, keyA item = .ok key)
    (hinj : ∀ x ∈ a, ∀ y ∈ a, keyA x = keyA y → x = y) : sortedBy keyA a = sortedBy keyA b := by
  obtain ⟨sa, hsa⟩ := sortedBy_ok hkeys
  obtain ⟨ka, hka, ha⟩ := Except.bind_eq_ok.mp hsa
  rw [Except.mapM_eq_ok] at hka
  obtain ⟨kb, hkb, hperm⟩ := List.perm_comp_forall₂ h.symm hka
  have hpair : ∀ pair ∈ ka, pair.2 ∈ a ∧ keyA pair.2 = .ok pair.1 := by
    intro pair hpair
    obtain ⟨item, hitem, hok⟩ := exists_of_mem_right hka hpair
    obtain ⟨key, hkey, hok⟩ := Except.bind_eq_ok.mp hok
    cases hok
    exact ⟨hitem, hkey⟩
  have hsorted : sortOn Prod.fst ka = sortOn Prod.fst kb := by
    apply sortOn_eq_of_perm hperm.symm
    intro x hx y hy hxy
    obtain ⟨hxa, hxkey⟩ := hpair x hx
    obtain ⟨hya, hykey⟩ := hpair y hy
    refine Prod.ext hxy (hinj _ hxa _ hya ?_)
    rw [hxkey, hykey, hxy]
  unfold sortedBy
  rw [Except.mapM_eq_ok.mpr hka, Except.mapM_eq_ok.mpr hkb]
  show Except.ok _ = Except.ok _
  rw [hsorted]

end Sorting

end Benzene.Contract
