import Mathlib.Data.List.Sort

namespace Benzene.Data

section StableSort

variable {α : Type} (r : α → α → Prop) (p : α → Bool)

-- The first of the least items that `p` picks.
def FirstLeast (items : List α) (least : α) : Prop :=
  ∃ before after, items = before ++ least :: after ∧ p least = true ∧
    (∀ other ∈ before, p other = true → ¬r other least) ∧ ∀ other ∈ after, p other = true → r least other

variable {r p}

theorem FirstLeast.mem {items : List α} {least : α} (h : FirstLeast r p items least) :
    least ∈ items ∧ p least = true := by
  obtain ⟨before, after, rfl, hp, -⟩ := h
  exact ⟨List.mem_append_right _ List.mem_cons_self, hp⟩

theorem FirstLeast.least [Std.Total r] {items : List α} {least : α} (h : FirstLeast r p items least) :
    ∀ other ∈ items, p other = true → r least other := by
  obtain ⟨before, after, rfl, -, hbefore, hafter⟩ := h
  intro other hother hp
  rcases List.mem_append.mp hother with hfront | hback
  · exact (total_of r least other).resolve_right (hbefore other hfront hp)
  · rcases List.mem_cons.mp hback with rfl | hrest
    · exact (total_of r other other).elim id id
    · exact hafter other hrest hp

theorem FirstLeast.cons {items : List α} {first least : α} (h : FirstLeast r p items least)
    (hfirst : p first = true → ¬r first least) : FirstLeast r p (first :: items) least := by
  obtain ⟨before, after, rfl, hp, hbefore, hafter⟩ := h
  refine ⟨first :: before, after, rfl, hp, fun other hother => ?_, hafter⟩
  rcases List.mem_cons.mp hother with rfl | hmem
  · exact hfirst
  · exact hbefore other hmem

variable [DecidableRel r]

-- Where an item is put in does not depend on the items that are left out.
theorem filter_orderedInsert [IsTrans α r] (item : α) {items : List α} (h : items.Pairwise r) :
    (items.orderedInsert r item).filter p =
      if p item then (items.filter p).orderedInsert r item else items.filter p := by
  induction items with
  | nil => cases hp : p item <;> simp [hp]
  | cons first rest ih =>
      obtain ⟨hfirst, hrest⟩ := List.pairwise_cons.mp h
      have hinserted := ih hrest
      by_cases hle : r item first
      · rw [List.orderedInsert_cons_of_le r rest hle, List.filter_cons]
        split
        · cases hq : p first with
          | true => rw [List.filter_cons_of_pos hq, List.orderedInsert_cons_of_le r _ hle]
          | false =>
              rw [List.filter_cons_of_neg (by simp [hq])]
              cases hfilter : rest.filter p with
              | nil => rfl
              | cons next others =>
                  have hnext : next ∈ rest := by
                    have hmem : next ∈ rest.filter p := hfilter ▸ List.mem_cons_self
                    exact (List.mem_filter.mp hmem).1
                  rw [List.orderedInsert_cons_of_le r _ (trans_of r hle (hfirst next hnext))]
        · rfl
      · rw [List.orderedInsert_of_not_le r rest hle, List.filter_cons, hinserted]
        cases hq : p first with
        | true =>
            rw [if_pos rfl, List.filter_cons_of_pos hq]
            split
            · rw [List.orderedInsert_of_not_le r _ hle]
            · rfl
        | false => rw [if_neg Bool.false_ne_true, List.filter_cons_of_neg (by simp [hq])]

-- What comes first in a stable sort is the first of the least.
theorem firstLeast_of_head? [Std.Total r] [IsTrans α r] {items : List α} {least : α}
    (h : ((items.insertionSort r).filter p).head? = some least) : FirstLeast r p items least := by
  induction items with
  | nil => cases h
  | cons first rest ih =>
      have hsorted := List.pairwise_insertionSort r rest
      rw [List.insertionSort_cons, filter_orderedInsert first hsorted] at h
      cases hp : p first with
      | false =>
          rw [hp, if_neg Bool.false_ne_true] at h
          exact (ih h).cons fun hfirst => absurd hfirst (by simp [hp])
      | true =>
          rw [hp, if_pos rfl] at h
          have hmem {other : α} (hother : other ∈ rest) (hq : p other = true) :
              other ∈ (rest.insertionSort r).filter p :=
            List.mem_filter.mpr ⟨(List.mem_insertionSort r).mpr hother, hq⟩
          cases hfilter : (rest.insertionSort r).filter p with
          | nil =>
              rw [hfilter] at h
              cases h
              refine ⟨[], rest, rfl, hp, fun _ hnone => absurd hnone List.not_mem_nil, ?_⟩
              intro other hother hq
              exact absurd (hfilter ▸ hmem hother hq) List.not_mem_nil
          | cons next others =>
              by_cases hle : r first next
              · rw [hfilter, List.orderedInsert_cons_of_le r _ hle] at h
                cases h
                refine ⟨[], rest, rfl, hp, fun _ hnone => absurd hnone List.not_mem_nil, ?_⟩
                intro other hother hq
                have hother' : other ∈ next :: others := hfilter ▸ hmem hother hq
                rcases List.mem_cons.mp hother' with rfl | hlater
                · exact hle
                · have hpairwise := hsorted.sublist (List.filter_sublist (p := p))
                  rw [hfilter] at hpairwise
                  exact trans_of r hle ((List.pairwise_cons.mp hpairwise).1 other hlater)
              · rw [hfilter, List.orderedInsert_of_not_le r _ hle] at h
                cases h
                exact (ih (by rw [hfilter]; rfl)).cons fun _ => hle

end StableSort

end Benzene.Data
