import Benzene.Data.WellFormed

namespace Benzene.Data

section Joining

theorem CodePoint.join_val {high low : CodePoint} (hh : high.isHighSurrogate) (hl : low.isLowSurrogate) :
    0x10000 ≤ (CodePoint.join high low).val := by
  simp only [CodePoint.isHighSurrogate, CodePoint.isLowSurrogate, Bool.and_eq_true, decide_eq_true_eq]
    at hh hl
  have hbound : 0x10000 + (high.val - 0xD800) * 0x400 + (low.val - 0xDC00) < 0x110000 := by omega
  have hval : (CodePoint.join high low).val =
      0x10000 + (high.val - 0xD800) * 0x400 + (low.val - 0xDC00) := Nat.mod_eq_of_lt hbound
  omega

theorem CodePoint.join_not_high {high low : CodePoint} (hh : high.isHighSurrogate)
    (hl : low.isLowSurrogate) : (CodePoint.join high low).isHighSurrogate = false := by
  have hval := CodePoint.join_val hh hl
  simp only [CodePoint.isHighSurrogate, Bool.and_eq_false_iff, decide_eq_false_iff_not]
  right
  omega

theorem CodePoint.join_not_low {high low : CodePoint} (hh : high.isHighSurrogate)
    (hl : low.isLowSurrogate) : (CodePoint.join high low).isLowSurrogate = false := by
  have hval := CodePoint.join_val hh hl
  simp only [CodePoint.isLowSurrogate, Bool.and_eq_false_iff, decide_eq_false_iff_not]
  right
  omega

namespace Str

@[simp] theorem rejoin_nil : rejoin [] = [] := rfl

@[simp] theorem rejoin_eq_nil {text : Str} : rejoin text = [] ↔ text = [] := by
  fun_cases rejoin text with
  | case1 high low rest hpair => simp
  | case2 high low rest hpair => simp
  | case3 text hother => rfl

-- The first code point is kept, or is the join of the first two.
theorem rejoin_head (c : CodePoint) (rest : Str) :
    ∃ head tail, rejoin (c :: rest) = head :: tail ∧ (head = c ∨ head.isLowSurrogate = false) := by
  cases rest with
  | nil => exact ⟨c, [], rfl, .inl rfl⟩
  | cons low rest =>
      by_cases hpair : c.isHighSurrogate ∧ low.isLowSurrogate
      · refine ⟨CodePoint.join c low, rejoin rest, ?_, .inr (CodePoint.join_not_low hpair.1 hpair.2)⟩
        rw [rejoin, if_pos hpair]
      · refine ⟨c, rejoin (low :: rest), ?_, .inl rfl⟩
        rw [rejoin, if_neg hpair]

-- Text that has been joined has nothing left to join.
theorem joined_rejoin (text : Str) : (rejoin text).Joined := by
  induction text using Str.pairInduction CodePoint.IsPair with
  | nil => exact List.isChain_nil
  | singleton c => exact List.isChain_singleton c
  | pair high low rest hpair ih =>
      rw [rejoin_pair hpair]
      unfold Joined
      rw [List.isChain_cons]
      refine ⟨?_, ih⟩
      intro next _ hjoined
      have hnot := CodePoint.join_not_high hpair.1 hpair.2
      rw [hnot] at hjoined
      exact Bool.false_ne_true hjoined.1
  | apart high low rest hpair ih =>
      rw [rejoin_apart hpair]
      unfold Joined
      rw [List.isChain_cons]
      refine ⟨?_, ih⟩
      intro next hnext hjoined
      obtain ⟨head, tail, hhead, hor⟩ := rejoin_head low rest
      rw [hhead, List.head?_cons] at hnext
      cases hnext
      cases hor with
      | inl hlow =>
          subst hlow
          exact hpair hjoined
      | inr hlow =>
          rw [hlow] at hjoined
          exact Bool.false_ne_true hjoined.2

@[simp] theorem rejoin_rejoin (text : Str) : rejoin (rejoin text) = rejoin text :=
  rejoin_of_joined (joined_rejoin text)

-- A join is beyond the basic plane.
theorem eq_of_rejoin_basic {text : Str} (h : ∀ c ∈ rejoin text, c.val < 0x10000) : rejoin text = text := by
  induction text using Str.pairInduction CodePoint.IsPair with
  | nil => rfl
  | singleton c => rfl
  | pair high low rest hpair ih =>
      rw [rejoin_pair hpair] at h
      have hbasic := h _ List.mem_cons_self
      have hval := CodePoint.join_val hpair.1 hpair.2
      omega
  | apart high low rest hpair ih =>
      rw [rejoin_apart hpair] at h ⊢
      rw [ih fun c hc => h c (List.mem_cons_of_mem _ hc)]

end Str

end Joining

namespace Json

section Fields

theorem rereadItems_eq_map (items : List Json) : rereadItems items = items.map reread := by
  induction items with
  | nil => rfl
  | cons item rest ih => rw [rereadItems, ih, List.map_cons]

-- Keys that text carries as they are.
def KeysJoined (fields : Fields) : Prop := ∀ key ∈ Entries.keys fields, Str.Joined key

theorem keys_rereadFields {fields : Fields} (h : KeysJoined fields) :
    Entries.keys (rereadFields fields) = Entries.keys fields := by
  induction fields with
  | nil => rfl
  | cons field rest ih =>
      have hrest := ih fun key hk => h key (List.mem_cons_of_mem _ hk)
      have hkey : field.1.rejoin = field.1 := Str.rejoin_of_joined (h field.1 List.mem_cons_self)
      rw [rereadFields, Entries.keys_cons, Entries.keys_cons, hrest, hkey]

theorem reread_obj {fields : Fields} (hkeys : KeysJoined fields) (hnodup : (Entries.keys fields).Nodup) :
    reread (.obj fields) = .obj (rereadFields fields) := by
  rw [reread, Entries.update_nil_of_nodup]
  rw [keys_rereadFields hkeys]
  exact hnodup

theorem getField_rereadFields {fields : Fields} (h : KeysJoined fields) (key : Str) :
    getField (rereadFields fields) key = (getField fields key).reread := by
  induction fields with
  | nil => rfl
  | cons field rest ih =>
      have hrest := ih fun key hk => h key (List.mem_cons_of_mem _ hk)
      have hkey : field.1.rejoin = field.1 := Str.rejoin_of_joined (h field.1 List.mem_cons_self)
      unfold getField at hrest ⊢
      rw [rereadFields, Entries.get?_cons, Entries.get?_cons, hkey]
      by_cases heq : field.1 = key
      · rw [if_pos heq, if_pos heq]
        rfl
      · rw [if_neg heq, if_neg heq]
        exact hrest

theorem keys_append (a b : Fields) : Entries.keys (a ++ b) = Entries.keys a ++ Entries.keys b :=
  List.map_append

theorem keys_optionalField_sublist (key : Str) (value : Option Str) :
    (Entries.keys (optionalField key value)).Sublist [key] := by
  cases value with
  | none => exact List.nil_sublist _
  | some text => exact List.Sublist.refl _

theorem rereadFields_append (a b : Fields) : rereadFields (a ++ b) = rereadFields a ++ rereadFields b := by
  induction a with
  | nil => rfl
  | cons field rest ih => rw [List.cons_append, rereadFields, rereadFields, ih, List.cons_append]

theorem rereadFields_optionalField {key : Str} (h : key.Joined) (value : Option Str) :
    rereadFields (optionalField key value) = optionalField key (value.map Str.rejoin) := by
  cases value with
  | none => rfl
  | some text =>
      rw [optionalField, rereadFields, Str.rejoin_of_joined h]
      rfl

end Fields

end Json

end Benzene.Data
