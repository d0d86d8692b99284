import Benzene.Codegen.Naming
import Benzene.Core.Pointers

namespace Benzene.Codegen

open Benzene.Data
open Benzene.Core (underscore)

section Letters

variable {c : CodePoint}

theorem isLowerLetter_of_upper (h : Str.isUpperLetter c = true) : Str.isLowerLetter c = false := by
  simp only [Str.isUpperLetter, Bool.and_eq_true, decide_eq_true_eq] at h
  simp only [Str.isLowerLetter, Bool.and_eq_false_iff, decide_eq_false_iff_not]
  omega

theorem isLowerLetter_of_decimal (h : Str.isDecimal c = true) : Str.isLowerLetter c = false := by
  simp only [Str.isDecimal, Bool.and_eq_true, decide_eq_true_eq] at h
  simp only [Str.isLowerLetter, Bool.and_eq_false_iff, decide_eq_false_iff_not]
  omega

theorem isUpperLetter_of_decimal (h : Str.isDecimal c = true) : Str.isUpperLetter c = false := by
  simp only [Str.isDecimal, Bool.and_eq_true, decide_eq_true_eq] at h
  simp only [Str.isUpperLetter, Bool.and_eq_false_iff, decide_eq_false_iff_not]
  omega

theorem isUpperLetter_of_small (h : isSmall c = true) : Str.isUpperLetter c = false := by
  simp only [isSmall, Str.isLowerLetter, Str.isDecimal, Bool.or_eq_true, Bool.and_eq_true, decide_eq_true_eq] at h
  simp only [Str.isUpperLetter, Bool.and_eq_false_iff, decide_eq_false_iff_not]
  omega

theorem isAlphanumeric_of_upper (h : Str.isUpperLetter c = true) : Str.isAlphanumeric c = true := by
  simp [Str.isAlphanumeric, h]

theorem isAlphanumeric_of_small (h : isSmall c = true) : Str.isAlphanumeric c = true := by
  simp only [isSmall, Bool.or_eq_true] at h
  simp only [Str.isAlphanumeric, Bool.or_eq_true]
  tauto

theorem isSmall_of_not_upper (h : Str.isAlphanumeric c = true) (hupper : Str.isUpperLetter c = false) :
    isSmall c = true := by
  simp only [Str.isAlphanumeric, hupper, Bool.or_eq_true] at h
  simp only [isSmall, Bool.or_eq_true]
  tauto

theorem upperAscii_of_not_lower (h : Str.isLowerLetter c = false) : Str.upperAscii c = c := by
  simp only [Str.isLowerLetter, Bool.and_eq_false_iff, decide_eq_false_iff_not] at h
  exact dif_neg (by omega)

theorem lowerAscii_of_not_upper (h : Str.isUpperLetter c = false) : Str.lowerAscii c = c := by
  simp only [Str.isUpperLetter, Bool.and_eq_false_iff, decide_eq_false_iff_not] at h
  exact dif_neg (by omega)

theorem upperAscii_lowerAscii (c : CodePoint) : Str.upperAscii (Str.lowerAscii c) = Str.upperAscii c := by
  unfold Str.lowerAscii
  split
  · unfold Str.upperAscii
    rw [dif_pos (by dsimp only; omega), dif_neg (by omega)]
    ext
    dsimp only
    omega
  · rfl

end Letters

section Spelling

-- The letters and digits of a name, a letter in upper case where a word begins: after
-- what is neither, and at a capital after no capital or before a small letter.
def spelledFrom (fresh afterCapital : Bool) : Str → Str
  | [] => []
  | c :: rest =>
      if Str.isAlphanumeric c then
        (if fresh || Str.isUpperLetter c && (!afterCapital || startsLower rest) then Str.upperAscii c
          else Str.lowerAscii c) :: spelledFrom false (Str.isUpperLetter c) rest
      else spelledFrom true false rest

def spelled (name : Str) : Str := spelledFrom true false name

variable {rest : Str}

theorem spelledFrom_capitals {capitals : Str} (h : ∀ c ∈ capitals, Str.isUpperLetter c = true)
    (hrest : startsLower rest = false) :
    spelledFrom false true (capitals ++ rest) = lowered capitals ++ spelledFrom false true rest := by
  induction capitals with
  | nil => rfl
  | cons c more ih =>
      have hc := h c List.mem_cons_self
      have hmore := fun d hd => h d (List.mem_cons_of_mem c hd)
      have hnext : startsLower (more ++ rest) = false := by
        cases more with
        | nil => exact hrest
        | cons d more => exact isLowerLetter_of_upper (hmore d List.mem_cons_self)
      rw [List.cons_append, spelledFrom, if_pos (isAlphanumeric_of_upper hc), hc, hnext, ih hmore]
      rfl

theorem spelledFrom_small {small : Str} (h : ∀ c ∈ small, isSmall c = true) :
    spelledFrom false false (small ++ rest) = lowered small ++ spelledFrom false false rest := by
  induction small with
  | nil => rfl
  | cons c more ih =>
      have hc := h c List.mem_cons_self
      rw [List.cons_append, spelledFrom, if_pos (isAlphanumeric_of_small hc), isUpperLetter_of_small hc,
        ih fun d hd => h d (List.mem_cons_of_mem c hd)]
      rfl

-- A word begins where the one before it ends.
theorem spelledFrom_fresh {afterCapital : Bool} (hlower : startsLower rest = false)
    (hupper : ∀ c more, rest = c :: more → Str.isUpperLetter c = true →
      afterCapital = false ∨ startsLower more = true) :
    spelledFrom false afterCapital rest = spelledFrom true false rest := by
  cases rest with
  | nil => rfl
  | cons c more =>
      rw [spelledFrom, spelledFrom]
      cases hc : Str.isUpperLetter c with
      | true =>
          have hbegins : (!afterCapital || startsLower more) = true := by
            rcases hupper c more rfl hc with h | h
            · rw [h]
              rfl
            · rw [h, Bool.or_true]
          rw [hbegins]
          rfl
      | false =>
          have hsame : Str.lowerAscii c = Str.upperAscii c :=
            (lowerAscii_of_not_upper hc).trans (upperAscii_of_not_lower hlower).symm
          rw [Bool.false_and, Bool.or_false, if_neg Bool.false_ne_true, hsame]
          rfl

theorem capitalized_lowered (c : CodePoint) (word : Str) :
    capitalized (lowered (c :: word)) = Str.upperAscii c :: lowered word := by
  show [Str.upperAscii (Str.lowerAscii c)] ++ lowered word = _
  rw [upperAscii_lowerAscii]
  rfl

-- A word of capitals, at the end of which another one begins.
theorem spelled_capitals {first : CodePoint} {more : Str} (hfirst : Str.isUpperLetter first = true)
    (hmore : ∀ c ∈ more, Str.isUpperLetter c = true) (hlower : startsLower rest = false)
    (hupper : ∀ c after, rest = c :: after → Str.isUpperLetter c = true → startsLower after = true) :
    spelled (first :: (more ++ rest)) = capitalized (lowered (first :: more)) ++ spelled rest := by
  have hfresh : spelledFrom false true rest = spelled rest :=
    spelledFrom_fresh hlower fun c after heq hc => .inr (hupper c after heq hc)
  rw [capitalized_lowered, spelled, spelledFrom, if_pos (isAlphanumeric_of_upper hfirst), hfirst,
    spelledFrom_capitals hmore hlower, hfresh]
  rfl

-- A word of small letters and digits, perhaps after one capital.
theorem spelled_small {capital small : Str} (hcapital : ∀ c ∈ capital, Str.isUpperLetter c = true)
    (hone : capital.length ≤ 1) (hsmall : ∀ c ∈ small, isSmall c = true) (hne : small ≠ [])
    (hlower : startsLower rest = false) :
    spelled (capital ++ small ++ rest) = capitalized (lowered (capital ++ small)) ++ spelled rest := by
  have hfresh : spelledFrom false false rest = spelled rest :=
    spelledFrom_fresh hlower fun _ _ _ _ => .inl rfl
  obtain ⟨s, more, rfl⟩ := List.exists_cons_of_ne_nil hne
  have hs := hsmall s List.mem_cons_self
  have hmore := fun c hc => hsmall c (List.mem_cons_of_mem s hc)
  cases capital with
  | nil =>
      rw [List.nil_append, capitalized_lowered, spelled, List.cons_append, spelledFrom,
        if_pos (isAlphanumeric_of_small hs), isUpperLetter_of_small hs, spelledFrom_small hmore, hfresh]
      rfl
  | cons first others =>
      have hothers : others = [] := by
        apply List.eq_nil_of_length_eq_zero
        rw [List.length_cons] at hone
        omega
      subst hothers
      have hfirst := hcapital first List.mem_cons_self
      have hword : [first] ++ s :: more ++ rest = first :: s :: (more ++ rest) := rfl
      rw [hword, List.singleton_append, capitalized_lowered, spelled, spelledFrom,
        if_pos (isAlphanumeric_of_upper hfirst), hfirst, spelledFrom, if_pos (isAlphanumeric_of_small hs),
        isUpperLetter_of_small hs, spelledFrom_small hmore, hfresh]
      rfl

theorem startsLower_dropWhile (text : Str) : startsLower (text.dropWhile isSmall) = false := by
  have hhead := List.head?_dropWhile_not isSmall text
  unfold startsLower
  cases h : (text.dropWhile isSmall).head? with
  | none => rfl
  | some c =>
      rw [h] at hhead
      have hsmall : isSmall c = false := hhead
      rw [isSmall, Bool.or_eq_false_iff] at hsmall
      exact hsmall.1

theorem takeWhile_isSmall_of_startsLower {text : Str} (h : startsLower text = true) : text.takeWhile isSmall ≠ [] := by
  cases text with
  | nil => cases h
  | cons c rest =>
      have hc : Str.isLowerLetter c = true := h
      have hsmall : isSmall c = true := by
        rw [isSmall, hc]
        rfl
      rw [List.takeWhile_cons_of_pos hsmall]
      exact List.cons_ne_nil _ _

-- What the regular expression matches is spelled as one word.
theorem spelled_nextWord {text : Str} (hne : text ≠ []) (h : ∀ c ∈ text, Str.isAlphanumeric c = true) :
    (nextWord text).1 ≠ [] ∧ (nextWord text).1 ++ (nextWord text).2 = text ∧
      spelled text = capitalized (lowered (nextWord text).1) ++ spelled (nextWord text).2 := by
  unfold nextWord
  have htext : text.takeWhile Str.isUpperLetter ++ text.dropWhile Str.isUpperLetter = text :=
    List.takeWhile_append_dropWhile
  have hcapitals : ∀ c ∈ text.takeWhile Str.isUpperLetter, Str.isUpperLetter c = true :=
    fun c hc => List.mem_takeWhile_imp hc
  have hafter : ∀ c rest, text.dropWhile Str.isUpperLetter = c :: rest → Str.isUpperLetter c = false := by
    intro c rest heq
    have hhead := List.head?_dropWhile_not Str.isUpperLetter text
    rw [heq] at hhead
    exact hhead
  generalize text.takeWhile Str.isUpperLetter = capitals at htext hcapitals ⊢
  generalize text.dropWhile Str.isUpperLetter = after at htext hafter ⊢
  subst htext
  have hsplit : after.takeWhile isSmall ++ after.dropWhile isSmall = after := List.takeWhile_append_dropWhile
  dsimp only
  by_cases hrun : (2 ≤ capitals.length && startsLower after) = true
  · rw [if_pos hrun]
    obtain ⟨hlength, hlower⟩ := Bool.and_eq_true_iff.mp hrun
    have hlength := of_decide_eq_true hlength
    -- the last capital is the next word's
    obtain ⟨first, more, last, rfl⟩ : ∃ first more last, capitals = first :: (more ++ [last]) := by
      match capitals, hlength with
      | first :: second :: others, _ =>
          have hothers : second :: others ≠ [] := List.cons_ne_nil _ _
          exact ⟨first, _, _, congrArg _ (List.dropLast_append_getLast hothers).symm⟩
    have htext : first :: (more ++ [last]) ++ after = first :: more ++ last :: after := by simp
    have hcount : (first :: (more ++ [last])).length - 1 = (first :: more).length := by simp
    rw [htext, hcount, List.take_left, List.drop_left]
    refine ⟨List.cons_ne_nil _ _, rfl, ?_⟩
    have hlast : Str.isUpperLetter last = true := hcapitals last (by simp)
    apply spelled_capitals (hcapitals first List.mem_cons_self)
    · intro c hc
      exact hcapitals c (List.mem_cons_of_mem _ (List.mem_append_left _ hc))
    · exact isLowerLetter_of_upper hlast
    · rintro c rest heq -
      cases heq
      exact hlower
  · rw [if_neg hrun]
    by_cases hshort : (capitals.length ≤ 1 && !(after.takeWhile isSmall).isEmpty) = true
    · rw [if_pos hshort]
      obtain ⟨hlength, hsmall⟩ := Bool.and_eq_true_iff.mp hshort
      have hsmall : after.takeWhile isSmall ≠ [] := by simpa using hsmall
      have hword : capitals ++ after = capitals ++ after.takeWhile isSmall ++ after.dropWhile isSmall := by
        rw [List.append_assoc, hsplit]
      refine ⟨fun heq => hsmall (List.append_eq_nil_iff.mp heq).2, hword.symm, ?_⟩
      rw [hword]
      exact spelled_small hcapitals (of_decide_eq_true hlength) (fun c hc => List.mem_takeWhile_imp hc) hsmall
        (startsLower_dropWhile after)
    · rw [if_neg hshort]
      have hlower : startsLower after = false := by
        by_contra hlower
        have hlower : startsLower after = true := by simpa using hlower
        have hlength : ¬2 ≤ capitals.length := fun hlength => hrun (by simp [hlength, hlower])
        apply hshort
        simp [takeWhile_isSmall_of_startsLower hlower]
        omega
      cases capitals with
      | nil =>
          exfalso
          obtain ⟨c, rest, rfl⟩ := List.exists_cons_of_ne_nil hne
          have hsmall := isSmall_of_not_upper (h c List.mem_cons_self) (hafter c rest rfl)
          apply hshort
          rw [List.takeWhile_cons_of_pos hsmall]
          rfl
      | cons first more =>
          refine ⟨List.cons_ne_nil _ _, rfl, ?_⟩
          apply spelled_capitals (hcapitals first List.mem_cons_self)
          · exact fun c hc => hcapitals c (List.mem_cons_of_mem first hc)
          · exact hlower
          · intro c rest heq hc
            rw [hafter c rest heq] at hc
            cases hc

end Spelling

section Words

-- A word is a run of small letters and digits.
def IsWord (word : Str) : Prop := word ≠ [] ∧ ∀ c ∈ word, isSmall c = true

instance (word : Str) : Decidable (IsWord word) :=
  decidable_of_iff (word ≠ [] ∧ word.all isSmall = true) (and_congr_right' List.all_eq_true)

theorem isSmall_lowerAscii {c : CodePoint} (h : Str.isAlphanumeric c = true) : isSmall (Str.lowerAscii c) = true := by
  cases hupper : Str.isUpperLetter c with
  | false =>
      rw [lowerAscii_of_not_upper hupper]
      exact isSmall_of_not_upper h hupper
  | true =>
      simp only [Str.isUpperLetter, Bool.and_eq_true, decide_eq_true_eq] at hupper
      unfold Str.lowerAscii
      rw [dif_pos (by omega)]
      simp only [isSmall, Str.isLowerLetter, Bool.or_eq_true, Bool.and_eq_true, decide_eq_true_eq]
      omega

theorem isWord_lowered {word : Str} (hne : word ≠ []) (h : ∀ c ∈ word, Str.isAlphanumeric c = true) :
    IsWord (lowered word) := by
  refine ⟨fun heq => hne (List.map_eq_nil_iff.mp heq), ?_⟩
  intro c hc
  obtain ⟨d, hd, rfl⟩ := List.mem_map.mp hc
  exact isSmall_lowerAscii (h d hd)

theorem camelWordsWithin_cons {fuel : Nat} {text : Str} (hne : text ≠ [])
    (hword : (nextWord text).1 ≠ []) :
    camelWordsWithin (fuel + 1) text = (nextWord text).1 :: camelWordsWithin fuel (nextWord text).2 := by
  obtain ⟨c, rest, rfl⟩ := List.exists_cons_of_ne_nil hne
  rw [camelWordsWithin]
  cases hnext : nextWord (c :: rest) with
  | mk word after =>
      rw [hnext] at hword
      cases word with
      | nil => exact absurd rfl hword
      | cons _ _ => rfl

theorem camelWordsWithin_spelled {fuel : Nat} {text : Str} (hfuel : text.length ≤ fuel)
    (h : ∀ c ∈ text, Str.isAlphanumeric c = true) :
    (∀ word ∈ (camelWordsWithin fuel text).map lowered, IsWord word) ∧
      ((camelWordsWithin fuel text).map lowered).flatMap capitalized = spelled text := by
  induction fuel generalizing text with
  | zero =>
      rw [List.length_eq_zero_iff.mp (Nat.le_zero.mp hfuel)]
      exact ⟨List.forall_mem_nil _, rfl⟩
  | succ fuel ih =>
      by_cases hne : text = []
      · subst hne
        exact ⟨List.forall_mem_nil _, rfl⟩
      · obtain ⟨hword, htext, hspelled⟩ := spelled_nextWord hne h
        have hlength := congrArg List.length htext
        rw [List.length_append] at hlength
        have hpos := List.length_pos_of_ne_nil hword
        have hrest : ∀ c ∈ (nextWord text).2, Str.isAlphanumeric c = true := by
          intro c hc
          apply h
          rw [← htext]
          exact List.mem_append_right _ hc
        obtain ⟨hwords, hflat⟩ := ih (by omega) hrest
        rw [camelWordsWithin_cons hne hword, List.map_cons, List.flatMap_cons, hflat, hspelled]
        have hfirst : IsWord (lowered (nextWord text).1) := by
          apply isWord_lowered hword
          intro c hc
          apply h
          rw [← htext]
          exact List.mem_append_left _ hc
        exact ⟨List.forall_mem_cons.mpr ⟨hfirst, hwords⟩, rfl⟩

theorem spelledFrom_append {fresh afterCapital : Bool} {run : Str} (h : ∀ c ∈ run, Str.isAlphanumeric c = true)
    {separator : CodePoint} (hseparator : Str.isAlphanumeric separator = false) (rest : Str) :
    spelledFrom fresh afterCapital (run ++ separator :: rest) =
      spelledFrom fresh afterCapital run ++ spelled rest := by
  induction run generalizing fresh afterCapital with
  | nil =>
      show spelledFrom fresh afterCapital (separator :: rest) = spelled rest
      rw [spelledFrom, hseparator]
      rfl
  | cons c more ih =>
      have hnext : startsLower (more ++ separator :: rest) = startsLower more := by
        cases more with
        | nil =>
            rw [Str.isAlphanumeric, Bool.or_eq_false_iff] at hseparator
            exact hseparator.2
        | cons d more => rfl
      have hc := h c List.mem_cons_self
      rw [List.cons_append, spelledFrom, spelledFrom, if_pos hc, if_pos hc, hnext,
        ih fun d hd => h d (List.mem_cons_of_mem c hd)]
      rfl

theorem runsFrom_spelled {run : Str} (hrun : ∀ c ∈ run, Str.isAlphanumeric c = true) (text : Str) :
    (∀ chunk ∈ Str.runsFrom run text, ∀ c ∈ chunk, Str.isAlphanumeric c = true) ∧
      (Str.runsFrom run text).flatMap spelled = spelled (run ++ text) := by
  induction text generalizing run with
  | nil =>
      rw [Str.runsFrom, List.append_nil]
      split
      · rename_i hnil
        rw [hnil]
        exact ⟨List.forall_mem_nil _, rfl⟩
      · exact ⟨List.forall_mem_singleton.mpr hrun, List.append_nil _⟩
  | cons c rest ih =>
      rw [Str.runsFrom]
      split
      · rename_i hc
        have hmore : ∀ d ∈ run ++ [c], Str.isAlphanumeric d = true := by
          intro d hd
          rcases List.mem_append.mp hd with hd | hd
          · exact hrun d hd
          · rw [List.mem_singleton.mp hd]
            exact hc
        have hsplit : run ++ c :: rest = run ++ [c] ++ rest := by rw [List.append_assoc, List.singleton_append]
        rw [hsplit]
        exact ih hmore
      · rename_i hc
        have hc : Str.isAlphanumeric c = false := by simpa using hc
        obtain ⟨hchunks, hflat⟩ := ih (List.forall_mem_nil _)
        have hspelled : spelled (run ++ c :: rest) = spelled run ++ spelled rest := spelledFrom_append hrun hc rest
        rw [hspelled]
        split
        · rename_i hnil
          rw [hnil]
          exact ⟨hchunks, hflat⟩
        · rw [List.flatMap_cons, hflat]
          exact ⟨List.forall_mem_cons.mpr ⟨hrun, hchunks⟩, rfl⟩

theorem isWord_of_mem_segmentWords {name word : Str} (h : word ∈ segmentWords name) : IsWord word := by
  obtain ⟨chunk, hchunk, hword⟩ := List.mem_flatMap.mp h
  have hchunk := (runsFrom_spelled (List.forall_mem_nil _) name).1 chunk hchunk
  exact (camelWordsWithin_spelled le_rfl hchunk).1 word hword

-- The words of a name, each with a capital, spell it.
theorem flatMap_capitalized_segmentWords (name : Str) : (segmentWords name).flatMap capitalized = spelled name := by
  obtain ⟨hchunks, hflat⟩ := runsFrom_spelled (List.forall_mem_nil _) name
  have hwords : ∀ chunks : List Str, (∀ chunk ∈ chunks, ∀ c ∈ chunk, Str.isAlphanumeric c = true) →
      (chunks.flatMap fun chunk => (camelWords chunk).map lowered).flatMap capitalized = chunks.flatMap spelled := by
    intro chunks hchunks
    rw [List.flatMap_assoc]
    exact List.flatMap_congr fun chunk hchunk => (camelWordsWithin_spelled le_rfl (hchunks chunk hchunk)).2
  exact (hwords _ hchunks).trans hflat

theorem spelled_eq_nil_iff {name : Str} : spelled name = [] ↔ ∀ c ∈ name, Str.isAlphanumeric c = false := by
  have hfrom (fresh afterCapital : Bool) :
      spelledFrom fresh afterCapital name = [] ↔ ∀ c ∈ name, Str.isAlphanumeric c = false := by
    induction name generalizing fresh afterCapital with
    | nil => simp [spelledFrom]
    | cons c rest ih =>
        rw [spelledFrom, List.forall_mem_cons]
        cases hc : Str.isAlphanumeric c with
        | true => simp
        | false => simpa using ih true false
  exact hfrom true false

theorem segmentWords_eq_nil_iff {name : Str} : segmentWords name = [] ↔ ∀ c ∈ name, Str.isAlphanumeric c = false := by
  rw [← spelled_eq_nil_iff, ← flatMap_capitalized_segmentWords]
  constructor
  · intro h
    rw [h]
    rfl
  · intro h
    by_contra hne
    obtain ⟨word, words, hwords⟩ := List.exists_cons_of_ne_nil hne
    have hword : IsWord word := isWord_of_mem_segmentWords (hwords ▸ List.mem_cons_self)
    rw [hwords, List.flatMap_cons] at h
    obtain ⟨c, rest, rfl⟩ := List.exists_cons_of_ne_nil hword.1
    cases h

end Words

end Benzene.Codegen
