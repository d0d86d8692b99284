import Benzene.Codegen.Names

namespace Benzene.Codegen

open Benzene.Data
open Benzene.Core (underscore toCamel normalizeName)

section Camel

-- The names that are written as they are: letters and digits alone, no capital at the
-- front, and no two capitals in a row but where the second one begins a word.
def capitalsApart : Str → Bool
  | c :: d :: rest =>
      !(Str.isUpperLetter c && Str.isUpperLetter d && !startsLower rest) && capitalsApart (d :: rest)
  | _ => true

def PlainWord (name : Str) : Prop :=
  name.all Str.isAlphanumeric = true ∧ name.head?.any Str.isUpperLetter = false ∧ capitalsApart name = true

instance (name : Str) : Decidable (PlainWord name) :=
  inferInstanceAs (Decidable (_ ∧ _ ∧ _))

def uncapitalized : Str → Str
  | [] => []
  | c :: rest => Str.lowerAscii c :: rest

theorem length_spelledFrom_le (fresh afterCapital : Bool) (name : Str) :
    (spelledFrom fresh afterCapital name).length ≤ name.length := by
  induction name generalizing fresh afterCapital with
  | nil => exact le_rfl
  | cons c rest ih =>
      rw [spelledFrom]
      split
      · exact Nat.succ_le_succ (ih _ _)
      · exact (ih _ _).trans (Nat.le_succ _)

theorem lowerAscii_eq_self_iff {c : CodePoint} : Str.lowerAscii c = c ↔ Str.isUpperLetter c = false := by
  constructor
  · intro h
    cases hc : Str.isUpperLetter c with
    | false => rfl
    | true =>
        simp only [Str.isUpperLetter, Bool.and_eq_true, decide_eq_true_eq] at hc
        unfold Str.lowerAscii at h
        rw [dif_pos (by omega)] at h
        have hval := congrArg Fin.val h
        dsimp only at hval
        omega
  · exact lowerAscii_of_not_upper

theorem spelledFrom_self_iff {afterCapital : Bool} {text : Str} :
    spelledFrom false afterCapital text = text ↔
      text.all Str.isAlphanumeric = true ∧
        ((afterCapital && text.head?.any Str.isUpperLetter && !startsLower text.tail) = false) ∧
        capitalsApart text = true := by
  induction text generalizing afterCapital with
  | nil => simp [spelledFrom, capitalsApart]
  | cons c rest ih =>
      rw [spelledFrom, List.all_cons, List.head?_cons, Option.any_some, List.tail_cons]
      cases hc : Str.isAlphanumeric c with
      | false =>
          have hlength := length_spelledFrom_le true false rest
          simp only [Bool.false_eq_true, if_false, Bool.false_and, false_and, iff_false]
          intro heq
          rw [heq, List.length_cons] at hlength
          omega
      | true =>
          have hapart : capitalsApart (c :: rest) = true ↔
              (Str.isUpperLetter c && rest.head?.any Str.isUpperLetter && !startsLower rest.tail) = false ∧
                capitalsApart rest = true := by
            cases rest with
            | nil => simp [capitalsApart]
            | cons d more =>
                rw [capitalsApart, List.head?_cons, Option.any_some, List.tail_cons, Bool.and_eq_true,
                  Bool.not_eq_true']
          rw [if_pos rfl, List.cons.injEq, ih, hapart]
          cases hupper : Str.isUpperLetter c with
          | false =>
              have hlower : Str.lowerAscii c = c := lowerAscii_of_not_upper hupper
              simp [hlower]
          | true =>
              have hsame : Str.upperAscii c = c := upperAscii_of_not_lower (isLowerLetter_of_upper hupper)
              have hne : Str.lowerAscii c ≠ c := fun heq => by
                rw [lowerAscii_eq_self_iff, hupper] at heq
                cases heq
              cases afterCapital <;> cases startsLower rest <;> simp [hsame, hne]

theorem uncapitalized_spelled_iff {name : Str} : uncapitalized (spelled name) = name ↔ PlainWord name := by
  unfold PlainWord
  cases name with
  | nil => simp [spelled, spelledFrom, uncapitalized, capitalsApart]
  | cons c rest =>
      rw [spelled, spelledFrom, List.all_cons, List.head?_cons, Option.any_some]
      cases hc : Str.isAlphanumeric c with
      | false =>
          have hlength : (uncapitalized (spelledFrom true false rest)).length ≤ rest.length := by
            refine le_trans ?_ (length_spelledFrom_le true false rest)
            cases spelledFrom true false rest <;> exact le_rfl
          simp only [Bool.false_eq_true, if_false, Bool.false_and, false_and, iff_false]
          intro heq
          rw [heq, List.length_cons] at hlength
          omega
      | true =>
          rw [if_pos rfl, Bool.true_or, if_pos rfl, uncapitalized, Core.lowerAscii_upperAscii, List.cons.injEq,
            lowerAscii_eq_self_iff, spelledFrom_self_iff]
          cases hupper : Str.isUpperLetter c with
          | true => simp
          | false =>
              have hapart : capitalsApart (c :: rest) = capitalsApart rest := by
                cases rest with
                | nil => rfl
                | cons d more => simp [capitalsApart, hupper]
              simp [hapart]

variable [UnicodeData]

theorem upper_take {part : Str} (h : ∀ c ∈ part, isSmall c = true) :
    Str.upper (part.take 1) ++ part.drop 1 = capitalized part := by
  have hascii : (part.take 1).all CodePoint.isAscii = true := by
    rw [List.all_eq_true]
    intro c hc
    exact Str.isAscii_of_isAlphanumeric (isAlphanumeric_of_small (h c (List.mem_of_mem_take hc)))
  rw [Str.upper, if_pos hascii]
  rfl

theorem toCamel_snake {word : Str} {words : List Str} (h : ∀ other ∈ word :: words, ∀ c ∈ other, isSmall c = true) :
    toCamel (snake (word :: words)) = word ++ words.flatMap capitalized := by
  have hsplit : Core.splitAt underscore (snake (word :: words)) = word :: words := by
    apply splitAt_snake (List.cons_ne_nil _ _)
    intro other hother hmem
    exact ne_underscore_of_small (h other hother _ hmem) rfl
  unfold toCamel
  rw [hsplit]
  refine congrArg (word ++ ·) (List.flatMap_congr fun part hpart => ?_)
  exact upper_take (h part (List.mem_cons_of_mem _ hpart))

variable [IdentifierData]

-- The underscores that make a name an identifier are not written.
theorem toCamel_ensureIdentifier {word : Str} {words : List Str} (h : ∀ other ∈ word :: words, IsWord other) :
    toCamel (ensureIdentifier (snake (word :: words))) = word ++ words.flatMap capitalized := by
  obtain ⟨c, rest, hc, hsnake, hhead⟩ := snake_head (h word List.mem_cons_self) words
  have hsmall : ∀ other ∈ word :: words, ∀ d ∈ other, isSmall d = true := fun other hother => (h other hother).2
  have hnil : ∀ others : List Str, (others ++ [[]]).flatMap capitalized = others.flatMap capitalized := by
    intro others
    rw [List.flatMap_append]
    exact List.append_nil _
  have hended : ∀ first others, led (c :: rest) = snake (first :: others) →
      (∀ other ∈ first :: others, ∀ d ∈ other, isSmall d = true) →
        toCamel (ensureIdentifier (c :: rest)) = first ++ others.flatMap capitalized := by
    intro first others hled hothers
    rcases ensureIdentifier_eq c rest with ⟨-, heq⟩ | ⟨-, heq⟩
    · rw [heq, hled]
      exact toCamel_snake hothers
    · rw [heq, hled, ← snake_append_nil (List.cons_ne_nil first others), List.cons_append, toCamel_snake, hnil]
      intro other hother
      rw [← List.cons_append] at hother
      rcases List.mem_append.mp hother with hother | hother
      · exact hothers other hother
      · rw [List.mem_singleton.mp hother]
        exact List.forall_mem_nil _
  rw [hsnake]
  rcases led_cons hc with ⟨hdecimal, hled⟩ | ⟨-, hled⟩
  · have hempty : underscore :: c :: rest = snake ([] :: word :: words) := by
      rw [snake_cons_cons, hsnake]
      rfl
    rw [hended [] (word :: words) (hled.trans hempty), List.flatMap_cons, List.nil_append]
    · obtain ⟨d, more, rfl⟩ := List.exists_cons_of_ne_nil (h word List.mem_cons_self).1
      cases hhead
      have hsame : capitalized (c :: more) = c :: more :=
        congrArg (· :: more) (upperAscii_of_not_lower (isLowerLetter_of_decimal hdecimal))
      rw [hsame]
    · exact List.forall_mem_cons.mpr ⟨List.forall_mem_nil _, hsmall⟩
  · exact hended word words (hled.trans hsnake.symm) hsmall

-- What is written under a field's name.
theorem toCamel_fieldName {name : Str} (h : spelled name ≠ []) :
    toCamel (fieldName name) = uncapitalized (spelled name) := by
  rw [← flatMap_capitalized_segmentWords] at h ⊢
  have hwords : ∀ word ∈ segmentWords name, IsWord word := fun _ => isWord_of_mem_segmentWords
  unfold fieldName
  cases hsegment : segmentWords name with
  | nil => exact absurd (by rw [hsegment]; rfl) h
  | cons word words =>
      rw [hsegment] at hwords
      dsimp only
      rw [if_neg (List.cons_ne_nil _ _), toCamel_ensureIdentifier hwords, List.flatMap_cons]
      obtain ⟨hne, hsmall⟩ := hwords word List.mem_cons_self
      obtain ⟨c, more, rfl⟩ := List.exists_cons_of_ne_nil hne
      have hc : Str.lowerAscii c = c := lowerAscii_of_not_upper (isUpperLetter_of_small (hsmall c List.mem_cons_self))
      show c :: (more ++ _) = Str.lowerAscii (Str.upperAscii c) :: (more ++ _)
      rw [Core.lowerAscii_upperAscii, hc]

theorem toCamel_fieldName_iff {name : Str} (h : spelled name ≠ []) :
    toCamel (fieldName name) = name ↔ PlainWord name := by
  rw [toCamel_fieldName h]
  exact uncapitalized_spelled_iff

omit [UnicodeData] in
theorem mem_ensureIdentifier {name : Str} {c : CodePoint} (h : c ∈ ensureIdentifier name) :
    c = underscore ∨ c ∈ name := by
  cases name with
  | nil => exact .inl (List.mem_singleton.mp h)
  | cons d rest =>
      have hled : ∀ e ∈ led (d :: rest), e = underscore ∨ e ∈ d :: rest := by
        intro e he
        unfold led at he
        split at he
        · exact List.mem_cons.mp he
        · exact .inr he
      rcases ensureIdentifier_eq d rest with ⟨-, heq⟩ | ⟨-, heq⟩
      · rw [heq] at h
        exact hled c h
      · rw [heq] at h
        rcases List.mem_append.mp h with h | h
        · exact hled c h
        · exact .inl (List.mem_singleton.mp h)

omit [UnicodeData] in
theorem isNamePart_fieldName {name : Str} (hne : spelled name ≠ []) {c : CodePoint} (h : c ∈ fieldName name) :
    Str.isNamePart c = true := by
  have hwords : segmentWords name ≠ [] := by
    intro hnil
    rw [← flatMap_capitalized_segmentWords, hnil] at hne
    exact hne rfl
  unfold fieldName at h
  dsimp only at h
  rw [if_neg hwords] at h
  rcases mem_ensureIdentifier h with rfl | h
  · decide
  · rcases mem_snake h with rfl | ⟨word, hword, hc⟩
    · decide
    · exact isNamePart_of_small ((isWord_of_mem_segmentWords hword).2 c hc)

-- A name that is written as it is, is read from its own letters.
theorem normalizeName_fieldName {name : Str} (hne : spelled name ≠ []) (h : PlainWord name) :
    normalizeName (fieldName name) = normalizeName name := by
  have hascii : ∀ c ∈ fieldName name, c.isAscii = true :=
    fun c hc => Str.isAscii_of_isNamePart (isNamePart_fieldName hne hc)
  have hfolds := (Core.foldsBack_iff _).mp (Core.foldsBack_ascii hascii)
  rw [(toCamel_fieldName_iff hne).mpr h] at hfolds
  exact hfolds.symm

end Camel

end Benzene.Codegen
