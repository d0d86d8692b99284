import Benzene.Data.Unicode
import Benzene.Data.Words

namespace Benzene.Data

-- What Python reads off the Unicode character database for the names of a module's
-- text, outside ASCII.
class IdentifierData where
  digit : CodePoint → Bool
  identifier : Str → Bool
  nfkc : Str → Str

-- The database of text that is ASCII alone.
@[reducible] def IdentifierData.ascii : IdentifierData where
  digit _ := false
  identifier _ := false
  nfkc := id

namespace Str

section Names

def isNameStart (c : CodePoint) : Bool := isUpperLetter c || isLowerLetter c || c = CodePoint.ofChar '_'

def isNamePart (c : CodePoint) : Bool := isAlphanumeric c || c = CodePoint.ofChar '_'

def isAsciiName : Str → Bool
  | [] => false
  | c :: rest => isNameStart c && rest.all isNamePart

-- `keyword.kwlist`.
def keywords : List Str :=
  ["False", "None", "True", "and", "as", "assert", "async", "await", "break", "class", "continue", "def", "del",
    "elif", "else", "except", "finally", "for", "from", "global", "if", "import", "in", "is", "lambda", "nonlocal",
    "not", "or", "pass", "raise", "return", "try", "while", "with", "yield"]

variable [IdentifierData]

-- `c.isdigit()`.
def isDigit (c : CodePoint) : Bool := if c.isAscii then isDecimal c else IdentifierData.digit c

-- `text.isidentifier()`.
def isIdentifier (text : Str) : Bool :=
  if text.all CodePoint.isAscii then isAsciiName text
  else text.all (fun c => !c.isSurrogate) && IdentifierData.identifier text

-- A name that a module can define.
def IsName (text : Str) : Prop := isIdentifier text = true ∧ text ∉ keywords

instance (text : Str) : Decidable (IsName text) :=
  inferInstanceAs (Decidable (_ ∧ _))

-- The name as the compiler keeps it.
def compiled (text : Str) : Str := if text.all CodePoint.isAscii then text else IdentifierData.nfkc text

end Names

section Ascii

theorem isAscii_of_isAlphanumeric {c : CodePoint} (h : isAlphanumeric c = true) : c.isAscii = true := by
  simp only [isAlphanumeric, isDecimal, isUpperLetter, isLowerLetter, Bool.or_eq_true, Bool.and_eq_true,
    decide_eq_true_eq] at h
  unfold CodePoint.isAscii
  rw [decide_eq_true_eq]
  omega

theorem isAscii_of_isNamePart {c : CodePoint} (h : isNamePart c = true) : c.isAscii = true := by
  rcases Bool.or_eq_true_iff.mp h with h | h
  · exact isAscii_of_isAlphanumeric h
  · rw [of_decide_eq_true h]
    decide

theorem isNamePart_of_isNameStart {c : CodePoint} (h : isNameStart c = true) : isNamePart c = true := by
  simp only [isNameStart, Bool.or_eq_true] at h
  simp only [isNamePart, isAlphanumeric, Bool.or_eq_true]
  tauto

theorem isNamePart_of_asciiName {text : Str} (h : isAsciiName text = true) : ∀ c ∈ text, isNamePart c = true := by
  cases text with
  | nil => exact List.forall_mem_nil _
  | cons c rest =>
      obtain ⟨hc, hrest⟩ := Bool.and_eq_true_iff.mp h
      exact List.forall_mem_cons.mpr ⟨isNamePart_of_isNameStart hc, List.all_eq_true.mp hrest⟩

theorem isAsciiName_append {text more : Str} (h : isAsciiName text = true) (hmore : ∀ c ∈ more, isNamePart c = true) :
    isAsciiName (text ++ more) = true := by
  cases text with
  | nil => cases h
  | cons c rest =>
      obtain ⟨hc, hrest⟩ := Bool.and_eq_true_iff.mp h
      show (isNameStart c && (rest ++ more).all isNamePart) = true
      rw [hc, List.all_append, hrest, List.all_eq_true.mpr hmore]
      rfl

variable [IdentifierData]

theorem isIdentifier_of_asciiName {text : Str} (h : isAsciiName text = true) : isIdentifier text = true := by
  have hascii : text.all CodePoint.isAscii = true := by
    rw [List.all_eq_true]
    exact fun c hc => isAscii_of_isNamePart (isNamePart_of_asciiName h c hc)
  unfold isIdentifier
  rw [if_pos hascii]
  exact h

theorem compiled_of_ascii {text : Str} (h : ∀ c ∈ text, c.isAscii = true) : compiled text = text :=
  if_pos (List.all_eq_true.mpr h)

end Ascii

end Str

end Benzene.Data
