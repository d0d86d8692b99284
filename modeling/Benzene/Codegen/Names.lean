import Benzene.Codegen.Spelling

namespace Benzene.Codegen

open Benzene.Data
open Benzene.Core (underscore)

section Snake

theorem isNamePart_of_small {c : CodePoint} (h : isSmall c = true) : Str.isNamePart c = true := by
  rw [Str.isNamePart, isAlphanumeric_of_small h]
  rfl

theorem ne_underscore_of_small {c : CodePoint} (h : isSmall c = true) : c ≠ underscore := by
  rintro rfl
  exact absurd h (by decide)

theorem mem_snake {words : List Str} {c : CodePoint} (h : c ∈ snake words) :
    c = underscore ∨ ∃ word ∈ words, c ∈ word := by
  unfold snake at h
  induction words with
  | nil => cases h
  | cons word rest ih =>
      cases rest with
      | nil => exact .inr ⟨word, List.mem_cons_self, h⟩
      | cons next rest =>
          rw [Str.join, List.append_assoc] at h
          · rcases List.mem_append.mp h with h | h
            · exact .inr ⟨word, List.mem_cons_self, h⟩
            · rcases List.mem_cons.mp h with h | h
              · exact .inl h
              · rcases ih h with h | ⟨other, hother, hc⟩
                · exact .inl h
                · exact .inr ⟨other, List.mem_cons_of_mem _ hother, hc⟩
          · simp

theorem snake_cons_cons (word next : Str) (rest : List Str) :
    snake (word :: next :: rest) = word ++ underscore :: snake (next :: rest) := by
  unfold snake
  rw [Str.join, List.append_assoc]
  · rfl
  · simp

theorem splitAt_snake {words : List Str} (hne : words ≠ []) (h : ∀ word ∈ words, underscore ∉ word) :
    Core.splitAt underscore (snake words) = words := by
  induction words with
  | nil => exact absurd rfl hne
  | cons word rest ih =>
      have hword := h word List.mem_cons_self
      cases rest with
      | nil => exact Core.splitAt_of_notMem hword
      | cons next rest =>
          rw [snake_cons_cons, Core.splitAt_append hword,
            ih (List.cons_ne_nil _ _) fun other hother => h other (List.mem_cons_of_mem _ hother)]

theorem snake_append_nil {words : List Str} (hne : words ≠ []) :
    snake (words ++ [[]]) = snake words ++ [underscore] := by
  induction words with
  | nil => exact absurd rfl hne
  | cons word rest ih =>
      cases rest with
      | nil => exact snake_cons_cons word [] []
      | cons next rest =>
          have hrest := ih (List.cons_ne_nil _ _)
          rw [List.cons_append, List.cons_append, snake_cons_cons, snake_cons_cons, List.append_assoc,
            List.cons_append, ← hrest]
          rfl

theorem snake_head {word : Str} (hword : IsWord word) (words : List Str) :
    ∃ c rest, isSmall c = true ∧ snake (word :: words) = c :: rest ∧ word.head? = some c := by
  obtain ⟨c, more, rfl⟩ := List.exists_cons_of_ne_nil hword.1
  have hc := hword.2 c List.mem_cons_self
  cases words with
  | nil => exact ⟨c, more, hc, rfl, rfl⟩
  | cons next rest => exact ⟨c, _, hc, snake_cons_cons _ _ _, rfl⟩

theorem isWord_of_mem_segments {segments : List Str} {word : Str} (h : word ∈ segments.flatMap segmentWords) :
    IsWord word := by
  obtain ⟨segment, -, hword⟩ := List.mem_flatMap.mp h
  exact isWord_of_mem_segmentWords hword

-- No keyword ends in an underscore.
theorem notMem_keywords {name : Str} : name ++ [underscore] ∉ Str.keywords := by
  have hall : ∀ word ∈ Str.keywords, word.getLast? ≠ some underscore := by decide
  intro h
  apply hall _ h
  simp

end Snake

section Identifiers

variable [IdentifierData]

theorem isDigit_of_small {c : CodePoint} (h : isSmall c = true) : Str.isDigit c = Str.isDecimal c :=
  if_pos (Str.isAscii_of_isAlphanumeric (isAlphanumeric_of_small h))

-- A digit at the front is led by an underscore.
def led (name : Str) : Str := if name.head?.any Str.isDigit then underscore :: name else name

-- A keyword is followed by one.
theorem ensureIdentifier_eq (c : CodePoint) (rest : Str) :
    led (c :: rest) ∉ Str.keywords ∧ ensureIdentifier (c :: rest) = led (c :: rest) ∨
      led (c :: rest) ∈ Str.keywords ∧ ensureIdentifier (c :: rest) = led (c :: rest) ++ [underscore] := by
  have heq : ensureIdentifier (c :: rest) =
      if led (c :: rest) ∈ Str.keywords then led (c :: rest) ++ [underscore] else led (c :: rest) := rfl
  rw [heq]
  split
  · rename_i hkeyword
    exact .inr ⟨hkeyword, rfl⟩
  · rename_i hkeyword
    exact .inl ⟨hkeyword, rfl⟩

theorem led_cons {c : CodePoint} {rest : Str} (hc : isSmall c = true) :
    Str.isDecimal c = true ∧ led (c :: rest) = underscore :: c :: rest ∨
      Str.isLowerLetter c = true ∧ led (c :: rest) = c :: rest := by
  have heq : led (c :: rest) = if Str.isDigit c then underscore :: c :: rest else c :: rest := rfl
  rw [heq, isDigit_of_small hc]
  split
  · rename_i hdecimal
    exact .inl ⟨hdecimal, rfl⟩
  · rename_i hdecimal
    rw [isSmall, Bool.or_eq_true] at hc
    exact .inr ⟨hc.resolve_right hdecimal, rfl⟩

theorem ensureIdentifier_cons {c : CodePoint} {rest : Str} (hc : isSmall c = true)
    (hrest : ∀ d ∈ rest, Str.isNamePart d = true) :
    Str.isAsciiName (ensureIdentifier (c :: rest)) = true ∧ ensureIdentifier (c :: rest) ∉ Str.keywords := by
  have hled : Str.isAsciiName (led (c :: rest)) = true := by
    have hall : rest.all Str.isNamePart = true := List.all_eq_true.mpr hrest
    rcases led_cons hc with ⟨-, heq⟩ | ⟨hlower, heq⟩
    · rw [heq]
      show ((c :: rest).all Str.isNamePart) = true
      rw [List.all_cons, isNamePart_of_small hc, hall]
      rfl
    · rw [heq]
      show (Str.isNameStart c && rest.all Str.isNamePart) = true
      rw [Str.isNameStart, hlower, Bool.or_true, hall]
      rfl
  rcases ensureIdentifier_eq c rest with ⟨hkeyword, heq⟩ | ⟨-, heq⟩
  · rw [heq]
    exact ⟨hled, hkeyword⟩
  · rw [heq]
    exact ⟨Str.isAsciiName_append hled (List.forall_mem_singleton.mpr (by decide)), notMem_keywords⟩

theorem ensureIdentifier_snake {words : List Str} (hne : words ≠ []) (h : ∀ word ∈ words, IsWord word) :
    Str.isAsciiName (ensureIdentifier (snake words)) = true ∧ ensureIdentifier (snake words) ∉ Str.keywords := by
  obtain ⟨word, rest, rfl⟩ := List.exists_cons_of_ne_nil hne
  obtain ⟨c, more, hc, hsnake, -⟩ := snake_head (h word List.mem_cons_self) rest
  rw [hsnake]
  apply ensureIdentifier_cons hc
  intro d hd
  have hmem : d ∈ snake (word :: rest) := hsnake ▸ List.mem_cons_of_mem c hd
  rcases mem_snake hmem with rfl | ⟨other, hother, hd⟩
  · decide
  · exact isNamePart_of_small ((h other hother).2 d hd)

theorem ensureIdentifier_orDefault {segments : List Str} {default : Str} (hdefault : IsWord default) :
    Str.isAsciiName (ensureIdentifier (orDefault (snake (segments.flatMap segmentWords)) default)) = true ∧
      ensureIdentifier (orDefault (snake (segments.flatMap segmentWords)) default) ∉ Str.keywords := by
  have hwords : ∀ word ∈ segments.flatMap segmentWords, IsWord word := fun _ => isWord_of_mem_segments
  unfold orDefault
  split
  · exact ensureIdentifier_snake (List.cons_ne_nil default []) (List.forall_mem_singleton.mpr hdefault)
  · rename_i hne
    apply ensureIdentifier_snake _ hwords
    intro hnil
    rw [hnil] at hne
    exact hne rfl

theorem isAsciiName_defaultMethodName (topic : Str) : Str.isAsciiName (defaultMethodName topic) = true :=
  (ensureIdentifier_orDefault (by decide)).1

theorem isAsciiName_topicIdentifier (topic : Str) : Str.isAsciiName (topicIdentifier topic) = true :=
  (ensureIdentifier_orDefault (by decide)).1

-- A method's name can be defined, whatever the topic.
theorem isName_defaultMethodName (topic : Str) : Str.IsName (defaultMethodName topic) :=
  ⟨Str.isIdentifier_of_asciiName (isAsciiName_defaultMethodName topic), (ensureIdentifier_orDefault (by decide)).2⟩

end Identifiers

section Classes

theorem isUpperLetter_upperAscii {c : CodePoint} (h : Str.isAlphanumeric c = true) :
    Str.isDecimal c = true ∨ Str.isUpperLetter (Str.upperAscii c) = true := by
  simp only [Str.isAlphanumeric, Str.isDecimal, Str.isUpperLetter, Str.isLowerLetter, Bool.or_eq_true,
    Bool.and_eq_true, decide_eq_true_eq] at h
  simp only [Str.isDecimal, Str.isUpperLetter, Bool.and_eq_true, decide_eq_true_eq]
  unfold Str.upperAscii
  split
  · dsimp only
    omega
  · omega

theorem isAlphanumeric_upperAscii {c : CodePoint} (h : Str.isAlphanumeric c = true) :
    Str.isAlphanumeric (Str.upperAscii c) = true := by
  rcases isUpperLetter_upperAscii h with hdecimal | hupper
  · rw [upperAscii_of_not_lower (isLowerLetter_of_decimal hdecimal)]
    exact h
  · exact isAlphanumeric_of_upper hupper

theorem isAlphanumeric_of_mem_spelledFrom {fresh afterCapital : Bool} {name : Str} {c : CodePoint}
    (h : c ∈ spelledFrom fresh afterCapital name) : Str.isAlphanumeric c = true := by
  induction name generalizing fresh afterCapital with
  | nil => cases h
  | cons d rest ih =>
      rw [spelledFrom] at h
      split at h
      · rename_i hd
        rcases List.mem_cons.mp h with rfl | h
        · split
          · exact isAlphanumeric_upperAscii hd
          · exact isAlphanumeric_of_small (isSmall_lowerAscii hd)
        · exact ih h
      · exact ih h

theorem spelled_head {name : Str} {c : CodePoint} {rest : Str} (h : spelled name = c :: rest) :
    Str.isDecimal c = true ∨ Str.isUpperLetter c = true := by
  unfold spelled at h
  induction name with
  | nil => cases h
  | cons d more ih =>
      rw [spelledFrom] at h
      split at h
      · rename_i hd
        obtain ⟨hc, -⟩ := List.cons.inj h
        rw [Bool.true_or, if_pos rfl] at hc
        subst hc
        rcases isUpperLetter_upperAscii hd with hdecimal | hupper
        · rw [upperAscii_of_not_lower (isLowerLetter_of_decimal hdecimal)]
          exact .inl hdecimal
        · exact .inr hupper
      · exact ih h

theorem pascal_eq (name : Str) : pascal name = orDefault (spelled name) "Schema" := by
  rw [pascal, flatMap_capitalized_segmentWords]

theorem pascal_cons (name : Str) : ∃ c rest, pascal name = c :: rest ∧
    (Str.isDecimal c = true ∨ Str.isUpperLetter c = true) ∧ ∀ d ∈ c :: rest, Str.isAlphanumeric d = true := by
  rw [pascal_eq]
  unfold orDefault
  split
  · exact ⟨CodePoint.ofChar 'S', ("chema" : Str), rfl, by decide, List.all_eq_true.mp (by decide)⟩
  · rename_i hne
    obtain ⟨c, rest, hspelled⟩ := List.exists_cons_of_ne_nil hne
    refine ⟨c, rest, hspelled, spelled_head hspelled, ?_⟩
    intro d hd
    rw [← hspelled] at hd
    exact isAlphanumeric_of_mem_spelledFrom hd

-- A component's letters are not led by an underscore.
theorem pascal_append_ne (name more rest : Str) : pascal name ++ more ≠ underscore :: rest := by
  obtain ⟨c, others, hpascal, -, hall⟩ := pascal_cons name
  intro h
  rw [hpascal, List.cons_append] at h
  have hhead := hall c List.mem_cons_self
  rw [(List.cons.inj h).1] at hhead
  exact absurd hhead (by decide)

variable [IdentifierData]

theorem className_cases (name : Str) : ∃ c rest, pascal name = c :: rest ∧
    (∀ d ∈ c :: rest, Str.isAlphanumeric d = true) ∧
    (Str.isDecimal c = true ∧ className name = underscore :: pascal name ∨
      Str.isUpperLetter c = true ∧ className name = pascal name) := by
  obtain ⟨c, rest, hpascal, hc, hall⟩ := pascal_cons name
  refine ⟨c, rest, hpascal, hall, ?_⟩
  have hdigit : Str.isDigit c = Str.isDecimal c := if_pos (Str.isAscii_of_isAlphanumeric (hall c List.mem_cons_self))
  unfold className
  rw [hpascal, List.head?_cons, Option.any_some, hdigit]
  cases hdecimal : Str.isDecimal c with
  | true => exact .inl ⟨rfl, rfl⟩
  | false => exact .inr ⟨hc.resolve_left (by simp [hdecimal]), rfl⟩

theorem isIdentifier_className (name : Str) : Str.isIdentifier (className name) = true := by
  obtain ⟨c, rest, hpascal, hall, hcases⟩ := className_cases name
  have hpart : ∀ d ∈ c :: rest, Str.isNamePart d = true := by
    intro d hd
    rw [Str.isNamePart, hall d hd]
    rfl
  rcases hcases with ⟨-, heq⟩ | ⟨hupper, heq⟩
  · have hname : Str.isAsciiName (underscore :: c :: rest) = true := by
      show (c :: rest).all Str.isNamePart = true
      exact List.all_eq_true.mpr fun d hd => hpart d hd
    rw [heq, hpascal]
    exact Str.isIdentifier_of_asciiName hname
  · have hname : Str.isAsciiName (c :: rest) = true := by
      show (Str.isNameStart c && rest.all Str.isNamePart) = true
      rw [Str.isNameStart, hupper, List.all_eq_true.mpr fun d hd => hpart d (List.mem_cons_of_mem c hd)]
      rfl
    rw [heq, hpascal]
    exact Str.isIdentifier_of_asciiName hname

-- The letters of a class's name are those of the component's.
theorem className_inj {a b : Str} : className a = className b ↔ pascal a = pascal b := by
  constructor
  · intro h
    obtain ⟨_, _, -, -, hc⟩ := className_cases a
    obtain ⟨_, _, -, -, hd⟩ := className_cases b
    rcases hc with ⟨-, hc⟩ | ⟨-, hc⟩
    · rcases hd with ⟨-, hd⟩ | ⟨-, hd⟩
      · rw [hc, hd] at h
        exact (List.cons.inj h).2
      · rw [hc, hd, ← List.append_nil (pascal b)] at h
        exact absurd h.symm (pascal_append_ne b _ _)
    · rcases hd with ⟨-, hd⟩ | ⟨-, hd⟩
      · rw [hc, hd, ← List.append_nil (pascal a)] at h
        exact absurd h (pascal_append_ne a _ _)
      · rwa [hc, hd] at h
  · intro h
    unfold className
    rw [h]

-- A name that is not led by an underscore is a class's if its letters are.
theorem className_eq_iff {name word : Str} (h : word.head?.any Str.isUpperLetter = true) :
    className name = word ↔ pascal name = word := by
  obtain ⟨d, others, rfl⟩ : ∃ d others, word = d :: others := by
    cases word with
    | nil => cases h
    | cons d others => exact ⟨d, others, rfl⟩
  have hd : Str.isUpperLetter d = true := h
  obtain ⟨c, rest, hpascal, hall, ⟨hdecimal, heq⟩ | ⟨-, heq⟩⟩ := className_cases name
  · rw [heq, hpascal]
    constructor
    · intro h
      rw [← (List.cons.inj h).1] at hd
      exact absurd hd (by decide)
    · intro h
      rw [← (List.cons.inj h).1, isUpperLetter_of_decimal hdecimal] at hd
      cases hd
  · rw [heq]

-- The keywords that begin with a capital.
def capitalKeywords : List Str := ["False", "None", "True"]

theorem isName_className_iff (name : Str) : Str.IsName (className name) ↔ pascal name ∉ capitalKeywords := by
  have hcapital : ∀ word ∈ capitalKeywords, word ∈ Str.keywords ∧ word.head?.any Str.isUpperLetter = true := by decide
  have hother : ∀ word ∈ Str.keywords, word ∉ capitalKeywords →
      word.head?.any (fun c => Str.isUpperLetter c || c = underscore) = false := by decide
  have hheads : ∀ word ∈ capitalKeywords, word.head? ≠ some underscore := by decide
  constructor
  · rintro ⟨-, hkeyword⟩ hmem
    obtain ⟨hmember, hhead⟩ := hcapital _ hmem
    rw [(className_eq_iff hhead).mpr rfl] at hkeyword
    exact hkeyword hmember
  · intro h
    refine ⟨isIdentifier_className name, ?_⟩
    intro hkeyword
    obtain ⟨c, rest, hpascal, hall, ⟨-, heq⟩ | ⟨hupper, heq⟩⟩ := className_cases name
    · rw [heq] at hkeyword
      have hfalse := hother _ hkeyword fun hmem => hheads _ hmem rfl
      exact absurd hfalse (by simp)
    · rw [heq] at hkeyword
      have hfalse := hother _ hkeyword h
      rw [hpascal, List.head?_cons, Option.any_some, hupper] at hfalse
      cases hfalse

end Classes

end Benzene.Codegen
