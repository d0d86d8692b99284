import Benzene.Core.Mapping
import Benzene.Data.Digits
import Mathlib.Data.List.TakeWhile

namespace Benzene.Core

open Benzene.Data

section Pointers

def slash : CodePoint := CodePoint.ofChar '/'

def tilde : CodePoint := CodePoint.ofChar '~'

-- A property name or an array index.
inductive Segment
  | name (text : Str)
  | index (n : Nat)

def Segment.text : Segment → Str
  | .name text => text
  | .index n => Str.ofNat n

-- `~` becomes `~0`, then `/` becomes `~1`.
def escape (text : Str) : Str :=
  (text.flatMap fun c => if c = tilde then ("~0" : Str) else [c]).flatMap fun c =>
    if c = slash then ("~1" : Str) else [c]

def pointerOf (texts : List Str) : Str := texts.flatMap fun text => slash :: escape text

def jsonPointer (segments : List Segment) : Str := pointerOf (segments.map Segment.text)

-- `text.replace(pattern, replacement)` for a pattern of two characters.
def replacePair (a b : CodePoint) (replacement : Str) : Str → Str
  | c :: d :: rest =>
      if c = a ∧ d = b then replacement ++ replacePair a b replacement rest
      else c :: replacePair a b replacement (d :: rest)
  | text => text

def unescape (part : Str) : Str :=
  replacePair tilde (Str.digit 0) [tilde] (replacePair tilde (Str.digit 1) [slash] part)

variable [UnicodeData]

def pointerSegments (pointer : Str) : Except PyError (List Str) :=
  match pointer with
  | [] => .ok []
  | c :: rest =>
      if c = slash then .ok ((splitAt slash rest).map unescape)
      else .error ⟨.valueError, Str.repr pointer ++
        (" is not a JSON Pointer: a non-empty pointer starts with '/'" : Str)⟩

end Pointers

section Unescaping

-- The characters of an escaped text, by the character each is from.
def escapeChar (c : CodePoint) : Str :=
  if c = tilde then [tilde, Str.digit 0] else if c = slash then [tilde, Str.digit 1] else [c]

theorem escape_eq (text : Str) : escape text = text.flatMap escapeChar := by
  unfold escape
  rw [List.flatMap_assoc]
  congr 1
  funext c
  unfold escapeChar
  by_cases htilde : c = tilde
  · rw [if_pos htilde, if_pos htilde]
    rfl
  · rw [if_neg htilde, if_neg htilde, List.flatMap_singleton]
    rfl

theorem replacePair_cons_of_ne {a b c : CodePoint} (replacement rest : Str) (h : c ≠ a) :
    replacePair a b replacement (c :: rest) = c :: replacePair a b replacement rest := by
  cases rest with
  | nil => rfl
  | cons d rest => rw [replacePair, if_neg fun hpair => h hpair.1]

theorem replacePair_pair (a b : CodePoint) (replacement rest : Str) :
    replacePair a b replacement (a :: b :: rest) = replacement ++ replacePair a b replacement rest := by
  rw [replacePair, if_pos ⟨rfl, rfl⟩]

theorem replacePair_other {a b d : CodePoint} (replacement rest : Str) (hb : d ≠ b) (ha : d ≠ a) :
    replacePair a b replacement (a :: d :: rest) = a :: d :: replacePair a b replacement rest := by
  rw [replacePair, if_neg fun hpair => hb hpair.2, replacePair_cons_of_ne replacement rest ha]

-- With the slashes back, only the tildes are escaped.
theorem replacePair_slash (text : Str) :
    replacePair tilde (Str.digit 1) [slash] (text.flatMap escapeChar) =
      text.flatMap fun c => if c = tilde then [tilde, Str.digit 0] else [c] := by
  induction text with
  | nil => rfl
  | cons c rest ih =>
      rw [List.flatMap_cons, List.flatMap_cons, ← ih, escapeChar]
      by_cases htilde : c = tilde
      · rw [if_pos htilde, if_pos htilde]
        exact replacePair_other [slash] _ (by decide) (by decide)
      · rw [if_neg htilde, if_neg htilde]
        by_cases hslash : c = slash
        · rw [if_pos hslash, hslash]
          exact replacePair_pair tilde (Str.digit 1) [slash] _
        · rw [if_neg hslash]
          exact replacePair_cons_of_ne [slash] _ htilde

theorem replacePair_tilde (text : Str) :
    replacePair tilde (Str.digit 0) [tilde]
      (text.flatMap fun c => if c = tilde then [tilde, Str.digit 0] else [c]) = text := by
  induction text with
  | nil => rfl
  | cons c rest ih =>
      rw [List.flatMap_cons]
      by_cases htilde : c = tilde
      · rw [if_pos htilde, htilde]
        exact (replacePair_pair tilde (Str.digit 0) [tilde] _).trans (congrArg (tilde :: ·) ih)
      · rw [if_neg htilde]
        exact (replacePair_cons_of_ne [tilde] _ htilde).trans (congrArg (c :: ·) ih)

theorem unescape_escape (text : Str) : unescape (escape text) = text := by
  rw [unescape, escape_eq, replacePair_slash, replacePair_tilde]

theorem slash_notMem_escape (text : Str) : slash ∉ escape text := by
  rw [escape_eq]
  intro h
  obtain ⟨c, -, hc⟩ := List.mem_flatMap.mp h
  unfold escapeChar at hc
  split at hc
  · exact absurd hc (by decide)
  · split at hc
    · exact absurd hc (by decide)
    · rename_i hslash
      exact hslash (List.mem_singleton.mp hc).symm

theorem splitAt_append {separator : CodePoint} {part : Str} (h : separator ∉ part) (rest : Str) :
    splitAt separator (part ++ separator :: rest) = part :: splitAt separator rest := by
  induction part with
  | nil => rw [List.nil_append, splitAt, if_pos rfl]
  | cons c part ih =>
      have hc : c ≠ separator := fun heq => h (heq ▸ List.mem_cons_self)
      rw [List.cons_append, splitAt, if_neg hc, ih fun hmem => h (List.mem_cons_of_mem _ hmem)]

theorem splitAt_of_notMem {separator : CodePoint} {part : Str} (h : separator ∉ part) :
    splitAt separator part = [part] := by
  induction part with
  | nil => rfl
  | cons c part ih =>
      have hc : c ≠ separator := fun heq => h (heq ▸ List.mem_cons_self)
      rw [splitAt, if_neg hc, ih fun hmem => h (List.mem_cons_of_mem _ hmem)]

theorem splitAt_pointer (text : Str) (texts : List Str) :
    splitAt slash (escape text ++ pointerOf texts) = escape text :: texts.map escape := by
  induction texts generalizing text with
  | nil =>
      rw [pointerOf, List.flatMap_nil, List.append_nil]
      exact splitAt_of_notMem (slash_notMem_escape text)
  | cons next texts ih =>
      rw [List.map_cons, ← ih next]
      exact splitAt_append (slash_notMem_escape text) _

variable [UnicodeData]

-- The segments of a pointer are those it was made of.
theorem pointerSegments_pointerOf (texts : List Str) : pointerSegments (pointerOf texts) = .ok texts := by
  cases texts with
  | nil => rfl
  | cons text texts =>
      have hsplit : splitAt slash (escape text ++ pointerOf texts) = (text :: texts).map escape :=
        splitAt_pointer text texts
      have hunescape : ((text :: texts).map escape).map unescape = text :: texts := by
        rw [List.map_map]
        refine (List.map_congr_left fun t _ => unescape_escape t).trans (List.map_id _)
      show pointerSegments (slash :: (escape text ++ pointerOf texts)) = _
      rw [pointerSegments, if_pos rfl, hsplit, hunescape]

omit [UnicodeData] in
theorem pointerOf_injective {texts others : List Str} (h : pointerOf texts = pointerOf others) : texts = others := by
  let _ := UnicodeData.ascii
  have htexts := pointerSegments_pointerOf texts
  rw [h, pointerSegments_pointerOf others] at htexts
  exact (Except.ok.inj htexts).symm

end Unescaping

section Verbatim

theorem splitAt_ne_nil (separator : CodePoint) (text : Str) : splitAt separator text ≠ [] := by
  cases text with
  | nil => exact List.cons_ne_nil _ _
  | cons c rest =>
      rw [splitAt]
      split
      · exact List.cons_ne_nil _ _
      · split <;> exact List.cons_ne_nil _ _

theorem notMem_of_splitAt {separator : CodePoint} {text part : Str}
    (h : splitAt separator text = [part]) : separator ∉ text := by
  intro hmem
  obtain ⟨front, back, rfl, hfront⟩ := List.eq_append_cons_of_mem hmem
  rw [splitAt_append hfront] at h
  exact splitAt_ne_nil separator back (List.cons.inj h).2

-- The two characters next to each other.
def HasPair (a b : CodePoint) (text : Str) : Prop := [a, b] <:+: text

instance (a b : CodePoint) (text : Str) : Decidable (HasPair a b text) := by
  unfold HasPair
  infer_instance

-- Each pair that is replaced makes the text shorter.
theorem replacePair_length (a b r : CodePoint) (text : Str) :
    (replacePair a b [r] text).length ≤ text.length ∧
      ((replacePair a b [r] text).length = text.length → ¬HasPair a b text) := by
  induction text using Str.pairInduction fun c d => c = a ∧ d = b with
  | nil =>
      have hnone : ¬HasPair a b [] := fun hinfix => absurd hinfix.length_le (by simp)
      exact ⟨le_rfl, fun _ => hnone⟩
  | singleton c =>
      have hnone : ¬HasPair a b [c] := fun hinfix => absurd hinfix.length_le (by simp)
      exact ⟨le_rfl, fun _ => hnone⟩
  | pair c d rest hpair ih =>
      rw [replacePair, if_pos hpair]
      simp only [List.singleton_append, List.length_cons]
      omega
  | apart c d rest hpair ih =>
      obtain ⟨hle, hfree⟩ := ih
      rw [replacePair, if_neg hpair]
      simp only [List.length_cons] at hle hfree ⊢
      refine ⟨by omega, fun hlength hinfix => ?_⟩
      rcases List.infix_cons_iff.mp hinfix with hprefix | hinfix
      · obtain ⟨ha, hrest⟩ := List.cons_prefix_cons.mp hprefix
        exact hpair ⟨ha.symm, (List.cons_prefix_cons.mp hrest).1.symm⟩
      · exact hfree (by omega) hinfix

theorem replacePair_of_free {a b : CodePoint} (replacement : Str) {text : Str} (h : ¬HasPair a b text) :
    replacePair a b replacement text = text := by
  induction text using Str.pairInduction fun c d => c = a ∧ d = b with
  | nil => rfl
  | singleton c => rfl
  | pair c d rest hpair ih =>
      obtain ⟨rfl, rfl⟩ := hpair
      exact absurd ⟨[], rest, rfl⟩ h
  | apart c d rest hpair ih =>
      rw [replacePair, if_neg hpair, ih fun hinfix => h (List.infix_cons hinfix)]

theorem unescape_eq_self_iff {text : Str} :
    unescape text = text ↔ ¬HasPair tilde (Str.digit 1) text ∧ ¬HasPair tilde (Str.digit 0) text := by
  constructor
  · intro h
    obtain ⟨hslashes, hnoSlash⟩ := replacePair_length tilde (Str.digit 1) slash text
    obtain ⟨htildes, hnoTilde⟩ :=
      replacePair_length tilde (Str.digit 0) tilde (replacePair tilde (Str.digit 1) [slash] text)
    have hlength := congrArg List.length h
    rw [unescape] at hlength
    have hone := hnoSlash (by omega)
    rw [replacePair_of_free [slash] hone] at hnoTilde hlength
    exact ⟨hone, hnoTilde hlength⟩
  · rintro ⟨hone, hzero⟩
    rw [unescape, replacePair_of_free [slash] hone, replacePair_of_free [tilde] hzero]

-- A name that a pointer can hold as it stands.
def Verbatim (name : Str) : Prop :=
  slash ∉ name ∧ ¬HasPair tilde (Str.digit 1) name ∧ ¬HasPair tilde (Str.digit 0) name

instance (name : Str) : Decidable (Verbatim name) := by
  unfold Verbatim
  infer_instance

theorem segments_self_iff {name : Str} : (splitAt slash name).map unescape = [name] ↔ Verbatim name := by
  rw [Verbatim, ← unescape_eq_self_iff]
  constructor
  · intro h
    have hslash : slash ∉ name := by
      obtain ⟨part, hpart, -⟩ := List.map_eq_singleton_iff.mp h
      exact notMem_of_splitAt hpart
    rw [splitAt_of_notMem hslash, List.map_singleton] at h
    exact ⟨hslash, (List.cons.inj h).1⟩
  · rintro ⟨hslash, hself⟩
    rw [splitAt_of_notMem hslash, List.map_singleton, hself]

end Verbatim

section Dotted

def dot : CodePoint := CodePoint.ofChar '.'

def openBracket : CodePoint := CodePoint.ofChar '['

def closeBracket : CodePoint := CodePoint.ofChar ']'

-- What a name of a dotted path is made of.
def isPlain (c : CodePoint) : Bool := c ≠ dot && c ≠ openBracket && c ≠ closeBracket

variable [UnicodeData]

def isDecimal (c : CodePoint) : Bool := (Str.decimalValue c).isSome

-- The tokens of a path: at each place the pattern `\[(\d+)\]`, else
-- `([^.\[\]]+)`, else nothing and one character is passed over.
def findTokens : Nat → Str → List Str
  | 0, _ => []
  | _ + 1, [] => []
  | fuel + 1, c :: rest =>
      if c = openBracket then
        match rest.takeWhile isDecimal, rest.dropWhile isDecimal with
        | d :: digits, e :: after =>
            if e = closeBracket then (d :: digits) :: findTokens fuel after else findTokens fuel rest
        | _, _ => findTokens fuel rest
      else if isPlain c then (c :: rest.takeWhile isPlain) :: findTokens fuel (rest.dropWhile isPlain)
      else findTokens fuel rest

def tokens (path : Str) : List Str := findTokens path.length path

def dottedToPointer (path : Str) : Str :=
  if path = [] ∨ path.head? = some slash then path else pointerOf (tokens path)

variable [DigitData]

-- A segment of digits in ASCII is an index.
def isIndex (segment : Str) : Bool := isDigitRun segment && segment.all CodePoint.isAscii

def dottedStep (dotted segment : Str) : Str :=
  if isIndex segment then dotted ++ openBracket :: (segment ++ [closeBracket])
  else if dotted ≠ [] then dotted ++ dot :: segment
  else dotted ++ segment

def pointerToDotted (field : Str) : Except PyError Str :=
  if field.head? = some slash then do return (← pointerSegments field).foldl dottedStep [] else .ok field

end Dotted

section Tokens

variable [UnicodeData]

theorem isDecimal_special {c : CodePoint} (h : isDecimal c = true) : isPlain c = true := by
  have hne (special : Char) (hnone : Str.decimalValue (CodePoint.ofChar special) = none) :
      c ≠ CodePoint.ofChar special := by
    rintro rfl
    rw [isDecimal, hnone] at h
    cases h
  have hdot := hne '.' rfl
  have hopen := hne '[' rfl
  have hclose := hne ']' rfl
  simp [isPlain, dot, openBracket, closeBracket, hdot, hopen, hclose]

-- Enough fuel is as good as more.
theorem findTokens_succ {fuel : Nat} {path : Str} (h : path.length ≤ fuel) :
    findTokens (fuel + 1) path = findTokens fuel path := by
  induction fuel generalizing path with
  | zero =>
      rw [List.length_eq_zero_iff.mp (Nat.le_zero.mp h)]
      rfl
  | succ fuel ih =>
      cases path with
      | nil => rfl
      | cons c rest =>
          have hrest : rest.length ≤ fuel := Nat.le_of_succ_le_succ h
          have hdrop (p : CodePoint → Bool) : (rest.dropWhile p).length ≤ fuel :=
            le_trans (List.dropWhile_sublist p).length_le hrest
          rw [findTokens, findTokens]
          by_cases hopen : c = openBracket
          · rw [if_pos hopen, if_pos hopen, ih hrest]
            have hdigits := hdrop isDecimal
            cases rest.takeWhile isDecimal with
            | nil => rfl
            | cons d digits =>
                cases hafter : rest.dropWhile isDecimal with
                | nil => rfl
                | cons e after =>
                    rw [hafter] at hdigits
                    dsimp only
                    rw [ih (le_trans (Nat.le_succ _) hdigits)]
          · rw [if_neg hopen, if_neg hopen, ih hrest, ih (hdrop isPlain)]

theorem findTokens_eq {fuel : Nat} {path : Str} (h : path.length ≤ fuel) : findTokens fuel path = tokens path := by
  induction fuel, h using Nat.le_induction with
  | base => rfl
  | succ fuel hle ih => rw [findTokens_succ hle, ih]

theorem tokens_index {digits rest : Str} (hne : digits ≠ []) (h : ∀ c ∈ digits, isDecimal c = true) :
    tokens (openBracket :: (digits ++ closeBracket :: rest)) = digits :: tokens rest := by
  have hclose : isDecimal closeBracket = false := rfl
  have htake : (digits ++ closeBracket :: rest).takeWhile isDecimal = digits := by
    rw [List.takeWhile_append_of_pos h, List.takeWhile_cons_of_neg (by rw [hclose]; decide), List.append_nil]
  have hdrop : (digits ++ closeBracket :: rest).dropWhile isDecimal = closeBracket :: rest := by
    rw [List.dropWhile_append_of_pos h, List.dropWhile_cons_of_neg (by rw [hclose]; decide)]
  have hlength : rest.length ≤ (digits ++ closeBracket :: rest).length := by
    rw [List.length_append, List.length_cons]
    omega
  show findTokens ((digits ++ closeBracket :: rest).length + 1) _ = _
  rw [findTokens, if_pos rfl, htake, hdrop, ← findTokens_eq hlength]
  cases digits with
  | nil => exact absurd rfl hne
  | cons d digits => exact if_pos rfl

theorem tokens_name {name rest : Str} (hne : name ≠ []) (h : ∀ c ∈ name, isPlain c = true)
    (hrest : ∀ c tail, rest = c :: tail → isPlain c = false) :
    tokens (name ++ rest) = name :: tokens rest := by
  cases name with
  | nil => exact absurd rfl hne
  | cons c name =>
      have hname : ∀ d ∈ name, isPlain d = true := fun d hd => h d (List.mem_cons_of_mem _ hd)
      have hc := h c List.mem_cons_self
      have hopen : c ≠ openBracket := by
        rintro rfl
        cases hc
      have htake : (name ++ rest).takeWhile isPlain = name := by
        rw [List.takeWhile_append_of_pos hname]
        cases rest with
        | nil => exact List.append_nil _
        | cons d tail => rw [List.takeWhile_cons_of_neg (by rw [hrest d tail rfl]; decide), List.append_nil]
      have hdrop : (name ++ rest).dropWhile isPlain = rest := by
        rw [List.dropWhile_append_of_pos hname]
        cases rest with
        | nil => rfl
        | cons d tail => rw [List.dropWhile_cons_of_neg (by rw [hrest d tail rfl]; decide)]
      have hlength : rest.length ≤ (name ++ rest).length := by
        rw [List.length_append]
        omega
      show findTokens ((name ++ rest).length + 1) (c :: (name ++ rest)) = _
      rw [findTokens, if_neg hopen, if_pos hc, htake, hdrop, findTokens_eq hlength]

-- A token is never empty and has no special character.
theorem findTokens_plain (fuel : Nat) (path : Str) :
    ∀ token ∈ findTokens fuel path, token ≠ [] ∧ ∀ c ∈ token, isPlain c = true := by
  induction fuel generalizing path with
  | zero => exact List.forall_mem_nil _
  | succ fuel ih =>
      cases path with
      | nil => exact List.forall_mem_nil _
      | cons c rest =>
          rw [findTokens]
          by_cases hopen : c = openBracket
          · rw [if_pos hopen]
            cases hdigits : rest.takeWhile isDecimal with
            | nil => exact ih rest
            | cons d digits =>
                cases rest.dropWhile isDecimal with
                | nil => exact ih rest
                | cons e after =>
                    dsimp only
                    split
                    · refine List.forall_mem_cons.mpr ⟨⟨List.cons_ne_nil _ _, ?_⟩, ih after⟩
                      intro digit hdigit
                      rw [← hdigits] at hdigit
                      have hdecimal := List.mem_takeWhile_imp hdigit
                      exact isDecimal_special hdecimal
                    · exact ih rest
          · rw [if_neg hopen]
            split
            · rename_i hplain
              refine List.forall_mem_cons.mpr ⟨⟨List.cons_ne_nil _ _, ?_⟩, ih _⟩
              refine List.forall_mem_cons.mpr ⟨hplain, ?_⟩
              intro d hd
              have hkept := List.mem_takeWhile_imp hd
              exact hkept
            · exact ih rest

end Tokens

section Counts

-- How many dots and opening brackets a text has: one for each segment after the
-- first, and for each index.
def specials (text : Str) : Nat := text.countP fun c => c = dot || c = openBracket

theorem specials_append (a b : Str) : specials (a ++ b) = specials a + specials b := List.countP_append

theorem specials_escape (text : Str) : specials (escape text) = specials text := by
  rw [escape_eq]
  induction text with
  | nil => rfl
  | cons c rest ih =>
      have hone : specials (escapeChar c) = specials [c] := by
        unfold escapeChar
        split
        · rename_i htilde
          rw [htilde]
          decide
        · split
          · rename_i hslash
            rw [hslash]
            decide
          · rfl
      rw [List.flatMap_cons, specials_append, ih, hone, ← specials_append]
      rfl

theorem length_le_escape (text : Str) : text.length ≤ (escape text).length := by
  rw [escape_eq]
  induction text with
  | nil => exact Nat.le_refl 0
  | cons c rest ih =>
      have hone : 1 ≤ (escapeChar c).length := by
        unfold escapeChar
        split
        · exact Nat.le_succ 1
        · split
          · exact Nat.le_succ 1
          · exact Nat.le_refl 1
      rw [List.flatMap_cons, List.length_append, List.length_cons]
      omega

theorem pointerOf_counts (texts : List Str) :
    specials (pointerOf texts) = (texts.map specials).sum ∧
      (texts.map List.length).sum + texts.length ≤ (pointerOf texts).length := by
  induction texts with
  | nil => exact ⟨rfl, Nat.le_refl 0⟩
  | cons text texts ih =>
      obtain ⟨hspecials, hlength⟩ := ih
      have hpointer : pointerOf (text :: texts) = [slash] ++ (escape text ++ pointerOf texts) := rfl
      have hslash : specials [slash] = 0 := by decide
      have hescape := length_le_escape text
      refine ⟨?_, ?_⟩
      · rw [hpointer, specials_append, specials_append, specials_escape, hspecials, hslash, List.map_cons,
          List.sum_cons, Nat.zero_add]
      · rw [hpointer, List.length_append, List.length_append, List.map_cons, List.sum_cons, List.length_cons,
          List.length_singleton]
        omega

end Counts

section Joining

variable [UnicodeData] [DigitData]

-- A segment as it stands after another one.
def piece (segment : Str) : Str :=
  if isIndex segment then openBracket :: (segment ++ [closeBracket]) else dot :: segment

-- The first segment has no dot before it.
def leading (segment : Str) : Str :=
  if isIndex segment then openBracket :: (segment ++ [closeBracket]) else segment

theorem dottedStep_nil (segment : Str) : dottedStep [] segment = leading segment := by
  unfold dottedStep leading
  split <;> rfl

theorem dottedStep_ne_nil {dotted : Str} (h : dotted ≠ []) (segment : Str) :
    dottedStep dotted segment = dotted ++ piece segment := by
  unfold dottedStep piece
  split
  · rfl
  · rfl

theorem foldl_dottedStep {dotted : Str} (h : dotted ≠ []) (texts : List Str) :
    texts.foldl dottedStep dotted = dotted ++ texts.flatMap piece := by
  induction texts generalizing dotted with
  | nil => exact (List.append_nil dotted).symm
  | cons text texts ih =>
      have hne : dotted ++ piece text ≠ [] := by simp [h]
      rw [List.foldl_cons, dottedStep_ne_nil h, ih hne, List.flatMap_cons, List.append_assoc]

theorem isDecimal_of_isIndex {segment : Str} (h : isIndex segment = true) :
    segment ≠ [] ∧ ∀ c ∈ segment, isDecimal c = true := by
  obtain ⟨hrun, hascii⟩ := Bool.and_eq_true_iff.mp h
  have hne : segment ≠ [] := by
    rintro rfl
    cases hrun
  refine ⟨hne, ?_⟩
  intro c hc
  have hdigit := (isDigitRun_iff hne).mp hrun c hc
  have hc := List.all_eq_true.mp hascii c hc
  rw [isDigitChar, hc, Bool.not_true, Bool.false_and, Bool.or_false] at hdigit
  exact hdigit

-- The texts whose dotted path is read back.
def Plain (texts : List Str) : Prop :=
  (∀ text ∈ texts, text ≠ [] ∧ ∀ c ∈ text, isPlain c = true) ∧
    ∀ text ∈ texts.head?, text.head? ≠ some slash

theorem piece_special {texts : List Str} : ∀ c tail, texts.flatMap piece = c :: tail → isPlain c = false := by
  intro c tail h
  cases texts with
  | nil => cases h
  | cons text texts =>
      rw [List.flatMap_cons, piece] at h
      split at h
      · rw [← (List.cons.inj h).1]
        rfl
      · rw [← (List.cons.inj h).1]
        rfl

theorem tokens_leading {text : Str} (hne : text ≠ []) (h : ∀ c ∈ text, isPlain c = true) (texts : List Str) :
    tokens (leading text ++ texts.flatMap piece) = text :: tokens (texts.flatMap piece) := by
  unfold leading
  split
  · rename_i hindex
    obtain ⟨-, hdecimal⟩ := isDecimal_of_isIndex hindex
    rw [List.cons_append, List.append_assoc, List.singleton_append]
    exact tokens_index hne hdecimal
  · exact tokens_name hne h piece_special

theorem tokens_pieces {texts : List Str} (h : ∀ text ∈ texts, text ≠ [] ∧ ∀ c ∈ text, isPlain c = true) :
    tokens (texts.flatMap piece) = texts := by
  induction texts with
  | nil => rfl
  | cons text texts ih =>
      obtain ⟨⟨hne, hplain⟩, hrest⟩ := List.forall_mem_cons.mp h
      have hlead := tokens_leading hne hplain texts
      rw [List.flatMap_cons, piece]
      rw [ih hrest] at hlead
      unfold leading at hlead
      split
      · rename_i hindex
        rw [if_pos hindex] at hlead
        exact hlead
      · rename_i hindex
        rw [if_neg hindex] at hlead
        exact hlead

theorem leading_ne_nil {text : Str} (h : text ≠ []) : leading text ≠ [] := by
  unfold leading
  split
  · exact List.cons_ne_nil _ _
  · exact h

theorem dotted_of_plain {text : Str} {texts : List Str} (h : Plain (text :: texts)) :
    dottedToPointer ((text :: texts).foldl dottedStep []) = pointerOf (text :: texts) := by
  obtain ⟨⟨hne, hplain⟩, hrest⟩ := List.forall_mem_cons.mp h.1
  have hlead := leading_ne_nil hne
  have hstart : (leading text ++ texts.flatMap piece).head? ≠ some slash := by
    rw [List.head?_append_of_ne_nil _ hlead]
    unfold leading
    split
    · rw [List.head?_cons]
      decide
    · exact h.2 text rfl
  have hpath : leading text ++ texts.flatMap piece ≠ [] := by simp [hlead]
  rw [List.foldl_cons, dottedStep_nil, foldl_dottedStep hlead, dottedToPointer,
    if_neg (by rintro (hnil | hslash); exacts [hpath hnil, hstart hslash]),
    tokens_leading hne hplain, tokens_pieces hrest]

theorem foldl_counts (dotted : Str) (texts : List Str) :
    ∃ extra, specials (texts.foldl dottedStep dotted) = specials dotted + (texts.map specials).sum + extra ∧
      (texts.foldl dottedStep dotted).length ≤ dotted.length + (texts.map List.length).sum + 2 * extra := by
  induction texts generalizing dotted with
  | nil => exact ⟨0, rfl, Nat.le_refl _⟩
  | cons text texts ih =>
      obtain ⟨extra, hspecials, hlength⟩ := ih (dottedStep dotted text)
      have hstep : ∃ more, specials (dottedStep dotted text) = specials dotted + specials text + more ∧
          (dottedStep dotted text).length ≤ dotted.length + text.length + 2 * more := by
        have hopen : specials [openBracket] = 1 := by decide
        have hclose : specials [closeBracket] = 0 := by decide
        have hdot : specials [dot] = 1 := by decide
        unfold dottedStep
        split
        · refine ⟨1, ?_, ?_⟩
          · rw [← List.singleton_append, specials_append, specials_append, specials_append, hopen, hclose]
            omega
          · rw [List.length_append, List.length_cons, List.length_append, List.length_singleton]
            omega
        · split
          · refine ⟨1, ?_, ?_⟩
            · rw [← List.singleton_append, specials_append, specials_append, hdot]
              omega
            · rw [List.length_append, List.length_cons]
              omega
          · refine ⟨0, ?_, ?_⟩
            · rw [specials_append]
              omega
            · rw [List.length_append]
              omega
      obtain ⟨more, hmore, hmoreLength⟩ := hstep
      refine ⟨extra + more, ?_, ?_⟩
      · rw [List.foldl_cons, hspecials, hmore, List.map_cons, List.sum_cons]
        omega
      · rw [List.foldl_cons, List.map_cons, List.sum_cons]
        omega

-- No dotted path is the pointer itself.
theorem dotted_ne_pointer {texts : List Str} (h : texts ≠ []) : texts.foldl dottedStep [] ≠ pointerOf texts := by
  intro heq
  obtain ⟨extra, hspecials, hlength⟩ := foldl_counts [] texts
  obtain ⟨hpointer, hshort⟩ := pointerOf_counts texts
  have hcount := List.length_pos_iff.mpr h
  have hnil : specials [] = 0 := rfl
  have hempty : List.length ([] : Str) = 0 := rfl
  rw [heq] at hspecials hlength
  omega

theorem prefix_foldl (dotted : Str) (texts : List Str) : dotted <+: texts.foldl dottedStep dotted := by
  induction texts generalizing dotted with
  | nil => exact List.prefix_rfl
  | cons text texts ih =>
      refine List.IsPrefix.trans ?_ (ih (dottedStep dotted text))
      unfold dottedStep
      split
      · exact List.prefix_append _ _
      · split <;> exact List.prefix_append _ _

theorem plain_of_dotted {texts : List Str} (hne : texts ≠ [])
    (h : dottedToPointer (texts.foldl dottedStep []) = pointerOf texts) : Plain texts := by
  unfold dottedToPointer at h
  split at h
  · exact absurd h (dotted_ne_pointer hne)
  · rename_i hstart
    have htokens := pointerOf_injective h
    have hplain : ∀ text ∈ texts, text ≠ [] ∧ ∀ c ∈ text, isPlain c = true := by
      rw [← htokens]
      exact findTokens_plain _ _
    refine ⟨hplain, ?_⟩
    intro text hhead hslash
    apply hstart
    right
    cases texts with
    | nil => exact absurd rfl hne
    | cons first rest =>
        cases hhead
        have hnil := (hplain text List.mem_cons_self).1
        have hindex : ¬ isIndex text = true := by
          intro hindex
          have hdecimal := (isDecimal_of_isIndex hindex).2 slash (List.mem_of_head? hslash)
          cases hdecimal
        have hleading : leading text = text := if_neg hindex
        have hprefix := prefix_foldl (dottedStep [] text) rest
        rw [dottedStep_nil, hleading] at hprefix
        obtain ⟨tail, htail⟩ := hprefix
        rw [List.foldl_cons, dottedStep_nil, hleading, ← htail, List.head?_append_of_ne_nil _ hnil]
        exact hslash

theorem pointerToDotted_pointerOf (texts : List Str) :
    pointerToDotted (pointerOf texts) = .ok (texts.foldl dottedStep []) := by
  cases texts with
  | nil => rfl
  | cons text texts =>
      unfold pointerToDotted
      rw [if_pos (show (pointerOf (text :: texts)).head? = some slash from rfl), pointerSegments_pointerOf]
      rfl

-- A pointer is read back from its dotted path exactly when its segments are plain.
theorem dottedToPointer_iff (texts : List Str) :
    dottedToPointer (texts.foldl dottedStep []) = pointerOf texts ↔ Plain texts := by
  cases texts with
  | nil =>
      refine ⟨fun _ => ⟨nofun, nofun⟩, fun _ => ?_⟩
      exact if_pos (.inl rfl)
  | cons text texts => exact ⟨plain_of_dotted (List.cons_ne_nil _ _), dotted_of_plain⟩

end Joining

end Benzene.Core
