import Benzene.Data.Canonical
import Benzene.Mesh.Ingest
import Mathlib.Algebra.Order.BigOperators.Group.List
import Mathlib.Data.Finset.Card

namespace Benzene.Mesh

open Benzene.Data

section Identities

abbrev ErrorIdentity := Option Str × Option Str

def IssueError.identity (entry : IssueError) : ErrorIdentity :=
  (presentText entry.field, presentText entry.code)

-- The entries that are kept apart from those with neither member.
def identities (entries : List IssueError) : Finset ErrorIdentity :=
  ((entries.map IssueError.identity).filter fun identity => identity ≠ (none, none)).toFinset

def totalCount (identity : ErrorIdentity) (entries : List IssueError) : Int :=
  ((entries.filter fun entry => entry.identity = identity).map IssueError.count).sum

theorem mem_identities {identity : ErrorIdentity} {entries : List IssueError} :
    identity ∈ identities entries ↔
      identity ≠ (none, none) ∧ ∃ entry ∈ entries, entry.identity = identity := by
  simp [identities, and_comm]

theorem identities_append (a b : List IssueError) : identities (a ++ b) = identities a ∪ identities b := by
  simp [identities]

theorem totalCount_append (identity : ErrorIdentity) (a b : List IssueError) :
    totalCount identity (a ++ b) = totalCount identity a + totalCount identity b := by
  simp [totalCount]

theorem totalCount_cons (identity : ErrorIdentity) (entry : IssueError) (rest : List IssueError) :
    totalCount identity (entry :: rest) =
      (if entry.identity = identity then entry.count else 0) + totalCount identity rest := by
  unfold totalCount
  by_cases h : entry.identity = identity
  · simp [h]
  · simp [h]

theorem presentText_presentText (value : Option Str) : presentText (presentText value) = presentText value := by
  unfold presentText
  cases value with
  | none => rfl
  | some text => by_cases h : text = [] <;> simp [h]

theorem order_injective : Function.Injective IssueError.order := by
  intro a b h
  obtain ⟨field, code, count⟩ := a
  obtain ⟨field', code', count'⟩ := b
  simp only [IssueError.order, EmbeddingLike.apply_eq_iff_eq, Prod.mk.injEq, neg_inj] at h
  obtain ⟨rfl, hfield, hfieldText, hcode, hcodeText⟩ := h
  congr
  · cases field <;> cases field' <;> simp_all
  · cases code <;> cases code' <;> simp_all

end Identities

section Counting

abbrev ErrorCounts := List (ErrorIdentity × Int)

theorem nodup_addIssueErrors (counts : ErrorCounts) (h : (Entries.keys counts).Nodup) (entries : List IssueError) :
    (Entries.keys (entries.foldl addIssueError counts)).Nodup := by
  induction entries generalizing counts with
  | nil => exact h
  | cons entry rest ih =>
      apply ih
      unfold addIssueError
      dsimp only
      split
      · exact h
      · exact Entries.nodup_keys_set h

theorem get?_addIssueError (counts : ErrorCounts) (entry : IssueError) {identity : ErrorIdentity}
    (h : identity ≠ (none, none)) : Entries.get? identity (addIssueError counts entry) =
      if entry.identity = identity then some ((Entries.get? identity counts).getD 0 + entry.count)
      else Entries.get? identity counts := by
  unfold addIssueError
  dsimp only
  by_cases hentry : entry.identity = identity
  · have hne : (presentText entry.field, presentText entry.code) ≠ (none, none) := by
      intro he
      exact h (hentry.symm.trans he)
    rw [if_neg hne, if_pos hentry]
    subst hentry
    exact Entries.get?_set_self _ _ _
  · rw [if_neg hentry]
    split
    · rfl
    · rw [Entries.get?_set]
      exact if_neg hentry

-- An identity that is met adds up, whatever was counted before.
theorem get?_addIssueErrors (entries : List IssueError) (counts : ErrorCounts) {identity : ErrorIdentity}
    (h : identity ≠ (none, none)) : Entries.get? identity (entries.foldl addIssueError counts) =
      if ∃ entry ∈ entries, entry.identity = identity then
        some ((Entries.get? identity counts).getD 0 + totalCount identity entries)
      else Entries.get? identity counts := by
  induction entries generalizing counts with
  | nil => simp
  | cons entry rest ih =>
      rw [List.foldl_cons, ih, get?_addIssueError counts entry h, totalCount_cons]
      by_cases hentry : entry.identity = identity
      · simp only [hentry, if_true, Option.getD_some, List.mem_cons, exists_eq_or_imp, true_or]
        split
        · congr 1
          omega
        · rename_i hrest
          have hzero : totalCount identity rest = 0 := by
            unfold totalCount
            rw [List.filter_eq_nil_iff.mpr, List.map_nil, List.sum_nil]
            intro other hother hsame
            exact hrest ⟨other, hother, by simpa using hsame⟩
          rw [hzero, add_zero]
      · simp only [hentry, if_false, List.mem_cons, exists_eq_or_imp, false_or, zero_add]

theorem get?_addIssueErrors_none (entries : List IssueError) (counts : ErrorCounts)
    (h : Entries.get? (none, none) counts = none) :
    Entries.get? (none, none) (entries.foldl addIssueError counts) = none := by
  induction entries generalizing counts with
  | nil => exact h
  | cons entry rest ih =>
      apply ih
      unfold addIssueError
      dsimp only
      split
      · exact h
      · rename_i hne
        rw [Entries.get?_set, if_neg hne]
        exact h

end Counting

section Summing

def IssueError.ofCount (identity : ErrorIdentity) (count : Int) : IssueError := ⟨identity.1, identity.2, count⟩

-- Every identity with its whole count, in the order of the wire, before the bound.
def summed (entries : List IssueError) : List IssueError :=
  sortOn IssueError.order ((entries.foldl addIssueError []).map fun count => .ofCount count.1 count.2)

theorem mergeIssueErrors_eq (existing delta : List IssueError) :
    mergeIssueErrors existing delta = (summed (existing ++ delta)).take maxIssueErrors := rfl

theorem ofCount_identity {identity : ErrorIdentity} {entries : List IssueError} (count : Int)
    (h : identity ∈ identities entries) : (IssueError.ofCount identity count).identity = identity := by
  obtain ⟨-, entry, -, rfl⟩ := mem_identities.mp h
  simp [IssueError.ofCount, IssueError.identity, presentText_presentText]

theorem mem_summed {entry : IssueError} {entries : List IssueError} :
    entry ∈ summed entries ↔
      ∃ identity ∈ identities entries, entry = .ofCount identity (totalCount identity entries) := by
  have hnodup := nodup_addIssueErrors [] List.nodup_nil entries
  rw [summed, (sortOn_perm _ _).mem_iff, List.mem_map]
  constructor
  · rintro ⟨⟨identity, count⟩, hcount, rfl⟩
    have hget := Entries.get?_of_mem hnodup hcount
    have hne : identity ≠ (none, none) := by
      rintro rfl
      rw [get?_addIssueErrors_none entries [] rfl] at hget
      cases hget
    rw [get?_addIssueErrors entries [] hne] at hget
    split at hget
    · rename_i hmet
      cases hget
      exact ⟨identity, mem_identities.mpr ⟨hne, hmet⟩, by simp⟩
    · cases hget
  · rintro ⟨identity, hidentity, rfl⟩
    obtain ⟨hne, hmet⟩ := mem_identities.mp hidentity
    have hget := get?_addIssueErrors entries [] hne
    rw [if_pos hmet] at hget
    exact ⟨_, Entries.mem_of_get? hget, by simp⟩

theorem identities_summed (entries : List IssueError) : identities (summed entries) = identities entries := by
  ext identity
  rw [mem_identities]
  constructor
  · rintro ⟨-, entry, hentry, rfl⟩
    obtain ⟨identity, hidentity, rfl⟩ := mem_summed.mp hentry
    rwa [ofCount_identity _ hidentity]
  · intro hidentity
    exact ⟨(mem_identities.mp hidentity).1, _, mem_summed.mpr ⟨identity, hidentity, rfl⟩,
      ofCount_identity _ hidentity⟩

theorem nodup_summed (entries : List IssueError) : ((summed entries).map IssueError.identity).Nodup := by
  have hnodup := nodup_addIssueErrors [] List.nodup_nil entries
  have hperm := (sortOn_perm IssueError.order
    ((entries.foldl addIssueError []).map fun count => .ofCount count.1 count.2)).map IssueError.identity
  rw [summed, hperm.nodup_iff, List.map_map]
  have hkeys : (entries.foldl addIssueError []).map
      (IssueError.identity ∘ fun count => .ofCount count.1 count.2) =
        Entries.keys (entries.foldl addIssueError []) := by
    apply List.map_congr_left
    intro count hcount
    have hmem : IssueError.ofCount count.1 count.2 ∈ summed entries := by
      rw [summed, (sortOn_perm _ _).mem_iff]
      exact List.mem_map.mpr ⟨count, hcount, rfl⟩
    obtain ⟨identity, hidentity, he⟩ := mem_summed.mp hmem
    have hsame : count.1 = identity := by
      have hfield := congrArg IssueError.field he
      have hcode := congrArg IssueError.code he
      exact Prod.ext hfield hcode
    rw [← hsame] at hidentity
    exact ofCount_identity _ hidentity
  rw [hkeys]
  exact hnodup

theorem length_summed (entries : List IssueError) : (summed entries).length = (identities entries).card := by
  have hcard := List.toFinset_card_of_nodup (nodup_summed entries)
  rw [List.length_map] at hcard
  rw [← hcard]
  congr 1
  ext identity
  rw [List.mem_toFinset, List.mem_map]
  constructor
  · rintro ⟨entry, hentry, rfl⟩
    obtain ⟨identity, hidentity, rfl⟩ := mem_summed.mp hentry
    rwa [ofCount_identity _ hidentity]
  · intro hidentity
    exact ⟨_, mem_summed.mpr ⟨identity, hidentity, rfl⟩, ofCount_identity _ hidentity⟩

theorem ordered_summed (entries : List IssueError) :
    (summed entries).Pairwise fun a b => a.order < b.order := by
  have hsorted := sortOn_pairwise IssueError.order
    ((entries.foldl addIssueError []).map fun count => .ofCount count.1 count.2)
  apply (hsorted.and (List.Nodup.of_map _ (nodup_summed entries))).imp
  rintro a b ⟨hle, hne⟩
  exact lt_of_le_of_ne hle fun he => hne (order_injective he)

end Summing

section Grouping

-- What counts agree on, whatever the order and the grouping of the entries.
structure SameCounts (a b : List IssueError) : Prop where
  identities : identities a = identities b
  counts : ∀ identity, identity ≠ (none, none) → totalCount identity a = totalCount identity b

theorem totalCount_eq_zero {identity : ErrorIdentity} {entries : List IssueError}
    (hne : identity ≠ (none, none)) (h : identity ∉ identities entries) : totalCount identity entries = 0 := by
  unfold totalCount
  rw [List.filter_eq_nil_iff.mpr, List.map_nil, List.sum_nil]
  intro entry hentry hsame
  exact h (mem_identities.mpr ⟨hne, entry, hentry, by simpa using hsame⟩)

theorem SameCounts.append {a b c d : List IssueError} (hab : SameCounts a b) (hcd : SameCounts c d) :
    SameCounts (a ++ c) (b ++ d) := by
  constructor
  · rw [identities_append, identities_append, hab.identities, hcd.identities]
  · intro identity hne
    rw [totalCount_append, totalCount_append, hab.counts identity hne, hcd.counts identity hne]

theorem sameCounts_of_perm {a b : List IssueError} (h : a.Perm b) : SameCounts a b := by
  constructor
  · ext identity
    simp only [mem_identities, h.mem_iff]
  · intro identity _
    exact ((h.filter _).map _).sum_eq

theorem totalCount_summed {identity : ErrorIdentity} {entries : List IssueError}
    (h : identity ∈ identities entries) : totalCount identity (summed entries) = totalCount identity entries := by
  have hmem := mem_summed.mpr ⟨identity, h, rfl⟩
  have hnodup := nodup_summed entries
  obtain ⟨before, after, hsplit⟩ := List.append_of_mem hmem
  have hid := ofCount_identity (totalCount identity entries) h
  rw [hsplit, List.map_append, List.map_cons, List.nodup_append, List.nodup_cons, hid] at hnodup
  obtain ⟨-, ⟨hafter, -⟩, hbefore⟩ := hnodup
  have hne := (mem_identities.mp h).1
  have hzero {part : List IssueError} (hpart : identity ∉ part.map IssueError.identity) :
      totalCount identity part = 0 := by
    apply totalCount_eq_zero hne
    intro hm
    obtain ⟨-, entry, hentry, he⟩ := mem_identities.mp hm
    exact hpart (List.mem_map.mpr ⟨entry, hentry, he⟩)
  rw [hsplit, totalCount_append, totalCount_cons, if_pos hid, hzero hafter, hzero]
  · simp [IssueError.ofCount]
  · intro hm
    exact hbefore identity hm identity List.mem_cons_self rfl

theorem sameCounts_summed (entries : List IssueError) : SameCounts (summed entries) entries := by
  constructor
  · exact identities_summed entries
  · intro identity hne
    by_cases h : identity ∈ identities entries
    · exact totalCount_summed h
    · rw [totalCount_eq_zero hne h, totalCount_eq_zero hne]
      rwa [identities_summed]

theorem summed_congr {a b : List IssueError} (h : SameCounts a b) : summed a = summed b := by
  have hmem (entry : IssueError) : entry ∈ summed a ↔ entry ∈ summed b := by
    rw [mem_summed, mem_summed, h.identities]
    constructor <;> rintro ⟨identity, hidentity, rfl⟩ <;> refine ⟨identity, hidentity, ?_⟩
    · rw [h.counts identity (mem_identities.mp hidentity).1]
    · rw [h.counts identity (mem_identities.mp hidentity).1]
  have hperm : (summed a).Perm (summed b) := (List.perm_ext_iff_of_nodup
    (List.Nodup.of_map _ (nodup_summed a)) (List.Nodup.of_map _ (nodup_summed b))).mpr hmem
  apply hperm.eq_of_pairwise _ (ordered_summed a) (ordered_summed b)
  intro x y _ _ hxy hyx
  exact absurd (hxy.trans hyx) (lt_irrefl _)

-- A way to merge error detail: delta after delta, or two results into one.
inductive Grouping
  | folded (deltas : List (List IssueError))
  | merged (left right : Grouping)

namespace Grouping

def deltas : Grouping → List (List IssueError)
  | .folded deltas => deltas
  | .merged left right => left.deltas ++ right.deltas

def value : Grouping → List IssueError
  | .folded deltas => deltas.foldl mergeIssueErrors []
  | .merged left right => mergeIssueErrors left.value right.value

end Grouping

theorem mergeIssueErrors_few {a b entries : List IssueError} (h : SameCounts (a ++ b) entries)
    (hfew : (identities entries).card ≤ maxIssueErrors) : mergeIssueErrors a b = summed entries := by
  rw [mergeIssueErrors_eq, summed_congr h]
  apply List.take_of_length_le
  rw [length_summed]
  exact hfew

theorem identities_card_le_append (a b : List IssueError) :
    (identities a).card ≤ (identities (a ++ b)).card ∧ (identities b).card ≤ (identities (a ++ b)).card := by
  rw [identities_append]
  exact ⟨Finset.card_le_card Finset.subset_union_left, Finset.card_le_card Finset.subset_union_right⟩

theorem foldl_few (deltas : List (List IssueError)) (hfew : (identities deltas.flatten).card ≤ maxIssueErrors) :
    deltas.foldl mergeIssueErrors [] = summed deltas.flatten := by
  induction deltas using List.reverseRecOn with
  | nil => rfl
  | append_singleton deltas delta ih =>
      rw [List.flatten_append, List.flatten_singleton] at hfew ⊢
      have hbefore := (identities_card_le_append deltas.flatten delta).1
      rw [List.foldl_append, List.foldl_cons, List.foldl_nil, ih (hbefore.trans hfew)]
      exact mergeIssueErrors_few ((sameCounts_summed _).append (sameCounts_of_perm (.refl delta))) hfew

-- Induction on the grouping: below the bound both sides of a merge are still whole.
theorem Grouping.value_few (grouping : Grouping)
    (hfew : (identities grouping.deltas.flatten).card ≤ maxIssueErrors) :
    grouping.value = summed grouping.deltas.flatten := by
  induction grouping with
  | folded deltas => exact foldl_few deltas hfew
  | merged left right ihl ihr =>
      simp only [Grouping.deltas, List.flatten_append] at hfew ⊢
      obtain ⟨hleft, hright⟩ := identities_card_le_append left.deltas.flatten right.deltas.flatten
      rw [Grouping.value, ihl (hleft.trans hfew), ihr (hright.trans hfew)]
      exact mergeIssueErrors_few ((sameCounts_summed _).append (sameCounts_summed _)) hfew

end Grouping

section Bound

structure Detail (entries : List IssueError) : Prop where
  distinct : (entries.map IssueError.identity).Nodup
  ordered : entries.Pairwise fun a b => a.order < b.order
  bounded : entries.length ≤ maxIssueErrors
  identified : ∀ entry ∈ entries, entry.identity ≠ (none, none)
  -- An empty member is an absent one.
  normalized : ∀ entry ∈ entries, (entry.field, entry.code) = entry.identity

theorem mergeIssueErrors_sublist (existing delta : List IssueError) :
    (mergeIssueErrors existing delta).Sublist (summed (existing ++ delta)) :=
  List.take_sublist _ _

theorem mem_mergeIssueErrors {existing delta : List IssueError} {entry : IssueError}
    (h : entry ∈ mergeIssueErrors existing delta) :
    entry.identity ∈ identities (existing ++ delta) ∧ (entry.field, entry.code) = entry.identity ∧
      entry.count = totalCount entry.identity (existing ++ delta) := by
  obtain ⟨identity, hidentity, rfl⟩ := mem_summed.mp ((mergeIssueErrors_sublist _ _).subset h)
  rw [ofCount_identity _ hidentity]
  exact ⟨hidentity, rfl, rfl⟩

theorem detail_merge (existing delta : List IssueError) : Detail (mergeIssueErrors existing delta) := by
  have hsublist := mergeIssueErrors_sublist existing delta
  constructor
  · exact (nodup_summed _).sublist (hsublist.map _)
  · exact (ordered_summed _).sublist hsublist
  · exact List.length_take_le _ _
  · intro entry hentry
    exact (mem_identities.mp (mem_mergeIssueErrors hentry).1).1
  · intro entry hentry
    exact (mem_mergeIssueErrors hentry).2.1

theorem detail_foldl (deltas : List (List IssueError)) : Detail (deltas.foldl mergeIssueErrors []) := by
  induction deltas using List.reverseRecOn with
  | nil => constructor <;> simp
  | append_singleton deltas delta _ =>
      rw [List.foldl_append, List.foldl_cons, List.foldl_nil]
      exact detail_merge _ _

theorem count_le_of_order {a b : IssueError} (h : a.order < b.order) : b.count ≤ a.count := by
  have hle : -a.count ≤ -b.count := by
    rcases Prod.Lex.lt_iff.mp h with hlt | ⟨he, -⟩
    · exact le_of_lt hlt
    · exact le_of_eq he
  omega

-- The bound drops no count over one that it keeps.
theorem kept_of_dropped {existing delta : List IssueError} {kept : IssueError} {identity : ErrorIdentity}
    (hkept : kept ∈ mergeIssueErrors existing delta) (hidentity : identity ∈ identities (existing ++ delta))
    (hdropped : identity ∉ identities (mergeIssueErrors existing delta)) :
    totalCount identity (existing ++ delta) ≤ kept.count := by
  have hmem := mem_summed.mpr ⟨identity, hidentity, rfl⟩
  have hordered := ordered_summed (existing ++ delta)
  rw [← List.take_append_drop maxIssueErrors (summed (existing ++ delta))] at hmem hordered
  rcases List.mem_append.mp hmem with htake | hdrop
  · refine absurd (mem_identities.mpr ⟨(mem_identities.mp hidentity).1, _, htake, ?_⟩) hdropped
    exact ofCount_identity _ hidentity
  · exact count_le_of_order ((List.pairwise_append.mp hordered).2.2 kept hkept _ hdrop)

end Bound

section Wire

section Payload

variable (entry : IssueError)

def IssueError.wire : Fields :=
  Json.optionalField "field" entry.field ++ Json.optionalField "code" entry.code ++
    [Json.field "count" (.int entry.count)]

theorem getField_wire_count : Json.getField entry.wire "count" = .int entry.count := by
  unfold IssueError.wire
  cases entry.field <;> cases entry.code <;> rfl

theorem getField_wire_field : Json.getField entry.wire "field" = (entry.field.map .str).getD .null := by
  unfold IssueError.wire
  cases entry.field <;> cases entry.code <;> rfl

theorem getField_wire_code : Json.getField entry.wire "code" = (entry.code.map .str).getD .null := by
  unfold IssueError.wire
  cases entry.field <;> cases entry.code <;> rfl

end Payload

theorem optionalText_member (value : Option Str) :
    optionalText ((value.map .str).getD .null) = some (presentText value) := by
  cases value <;> rfl

theorem decode_toPayload {entry : IssueError} (hcount : 0 < entry.count)
    (hidentity : entry.identity ≠ (none, none)) (hnormal : (entry.field, entry.code) = entry.identity) :
    decodeIssueError entry.toPayload = some entry := by
  have hpositive : ¬ entry.count ≤ 0 := not_le.mpr hcount
  have hfield : presentText entry.field = entry.field := (congrArg Prod.fst hnormal).symm
  have hcode : presentText entry.code = entry.code := (congrArg Prod.snd hnormal).symm
  have hmember : ¬ (entry.field = none ∧ entry.code = none) := by
    rintro ⟨hf, hc⟩
    apply hidentity
    rw [← hnormal, hf, hc]
  show decodeIssueError (.obj entry.wire) = some entry
  simp only [decodeIssueError, getField_wire_count, getField_wire_field, getField_wire_code,
    optionalText_member, hfield, hcode, if_neg hpositive, if_neg hmember]

theorem decodeIssueErrors_toPayload {entries : List IssueError} (h : Detail entries)
    (hcounts : ∀ entry ∈ entries, 0 < entry.count) :
    decodeIssueErrors (.arr (entries.map IssueError.toPayload)) = entries := by
  rw [decodeIssueErrors, List.filterMap_map]
  apply (List.filterMap_congr _).trans List.filterMap_some
  intro entry hentry
  exact decode_toPayload (hcounts entry hentry) (h.identified entry hentry) (h.normalized entry hentry)

theorem totalCount_pos {identity : ErrorIdentity} {entries : List IssueError} (h : identity ∈ identities entries)
    (hcounts : ∀ entry ∈ entries, 0 < entry.count) : 0 < totalCount identity entries := by
  obtain ⟨-, entry, hentry, rfl⟩ := mem_identities.mp h
  apply List.sum_pos
  · intro count hcount
    obtain ⟨other, hother, rfl⟩ := List.mem_map.mp hcount
    exact hcounts other (List.mem_of_mem_filter hother)
  · intro hnil
    have hmem : entry ∈ entries.filter fun other => other.identity = entry.identity :=
      List.mem_filter.mpr ⟨hentry, by simp⟩
    rw [List.map_eq_nil_iff.mp hnil] at hmem
    cases hmem

theorem count_pos_of_merge {existing delta : List IssueError} (hexisting : ∀ entry ∈ existing, 0 < entry.count)
    (hdelta : ∀ entry ∈ delta, 0 < entry.count) :
    ∀ entry ∈ mergeIssueErrors existing delta, 0 < entry.count := by
  intro entry hentry
  obtain ⟨hidentity, -, hcount⟩ := mem_mergeIssueErrors hentry
  rw [hcount]
  apply totalCount_pos hidentity
  intro other hother
  exact (List.mem_append.mp hother).elim (hexisting other) (hdelta other)

theorem count_pos_of_foldl {deltas : List (List IssueError)}
    (hvalid : ∀ delta ∈ deltas, ∀ entry ∈ delta, 0 < entry.count) :
    ∀ entry ∈ deltas.foldl mergeIssueErrors [], 0 < entry.count := by
  induction deltas using List.reverseRecOn with
  | nil => simp
  | append_singleton deltas delta ih =>
      rw [List.foldl_append, List.foldl_cons, List.foldl_nil]
      apply count_pos_of_merge
      · exact ih fun other hother => hvalid other (List.mem_append_left _ hother)
      · exact hvalid delta (by simp)

end Wire

section Merging

-- Error detail as it is merged, in any order and any grouping.
theorem errorDetail_merges (deltas : List (List IssueError))
    (hvalid : ∀ delta ∈ deltas, ∀ entry ∈ delta, 0 < entry.count) :
    Detail (deltas.foldl mergeIssueErrors []) ∧
    (∀ existing delta, ∀ kept ∈ mergeIssueErrors existing delta, ∀ identity ∈ identities (existing ++ delta),
      identity ∉ identities (mergeIssueErrors existing delta) →
      totalCount identity (existing ++ delta) ≤ kept.count) ∧
    ((identities deltas.flatten).card ≤ maxIssueErrors →
      (∀ grouping : Grouping, grouping.deltas.flatten.Perm deltas.flatten →
        grouping.value = deltas.foldl mergeIssueErrors []) ∧
      identities (deltas.foldl mergeIssueErrors []) = identities deltas.flatten ∧
      (∀ entry ∈ deltas.foldl mergeIssueErrors [],
        entry.count = totalCount entry.identity deltas.flatten) ∧
      decodeIssueErrors (.arr ((deltas.foldl mergeIssueErrors []).map IssueError.toPayload)) =
        deltas.foldl mergeIssueErrors []) := by
  refine ⟨detail_foldl deltas, ?_, ?_⟩
  · intro existing delta kept hkept identity hidentity hdropped
    exact kept_of_dropped hkept hidentity hdropped
  · intro hfew
    have hwire := decodeIssueErrors_toPayload (detail_foldl deltas) (count_pos_of_foldl hvalid)
    rw [foldl_few deltas hfew] at hwire ⊢
    refine ⟨?_, identities_summed _, ?_, hwire⟩
    · intro grouping hperm
      have hsame := sameCounts_of_perm hperm
      rw [grouping.value_few (by rwa [hsame.identities]), summed_congr hsame]
    · intro entry hentry
      obtain ⟨identity, hidentity, rfl⟩ := mem_summed.mp hentry
      rw [ofCount_identity _ hidentity]
      rfl

theorem errorDetail_merges_two :
    Detail ([[⟨some "name", none, 1⟩], [⟨some "name", some [], 2⟩]].foldl mergeIssueErrors []) ∧
    mergeIssueErrors (mergeIssueErrors [] [⟨some "name", some [], 2⟩]) [⟨some "name", none, 1⟩] =
      [⟨some "name", none, 3⟩] := by
  have h := errorDetail_merges [[⟨some "name", none, 1⟩], [⟨some "name", some [], 2⟩]] (by decide)
  refine ⟨h.1, ?_⟩
  exact ((h.2.2 (by decide)).1 (.folded [[⟨some "name", some [], 2⟩], [⟨some "name", none, 1⟩]])
    (List.Perm.swap _ _ _)).trans (by decide)

end Merging

end Benzene.Mesh
