import Mathlib.Data.Fin.Basic
import Mathlib.Data.List.Induction
import Mathlib.Data.List.Lex
import Mathlib.Data.List.Sort
import Mathlib.Data.Nat.Digits.Lemmas

namespace Benzene.Data

-- A Python string is a sequence of code points, lone surrogates included.
abbrev CodePoint := Fin 0x110000

abbrev Str := List CodePoint

-- An induction over the first two characters, which are such a pair or not.
theorem Str.pairInduction (p : CodePoint → CodePoint → Prop) {motive : Str → Prop} (nil : motive [])
    (singleton : ∀ c, motive [c]) (pair : ∀ c d rest, p c d → motive rest → motive (c :: d :: rest))
    (apart : ∀ c d rest, ¬p c d → motive (d :: rest) → motive (c :: d :: rest)) (text : Str) : motive text := by
  induction text using List.twoStepInduction with
  | nil => exact nil
  | singleton c => exact singleton c
  | cons_cons c d rest ihRest ihTail =>
      by_cases hpair : p c d
      · exact pair c d rest hpair ihRest
      · exact apart c d rest hpair (ihTail d)

instance CodePoint.neZero : NeZero 0x110000 := ⟨by decide⟩

instance CodePoint.lawfulBEq : LawfulBEq CodePoint := inferInstance

instance Str.lawfulBEq : LawfulBEq Str := inferInstance

namespace CodePoint

theorem toNat_lt (c : Char) : c.toNat < 0x110000 := by
  rcases c.valid with h | h
  · exact Nat.lt_trans h (by decide)
  · exact h.2

def ofChar (c : Char) : CodePoint := ⟨c.toNat, toNat_lt c⟩

theorem ofChar_injective : Function.Injective ofChar := by
  intro a b h
  have hval : a.val.toNat = b.val.toNat := congrArg (fun c : CodePoint => c.val) h
  exact Char.ext (UInt32.toNat_inj.mp hval)

@[simp] theorem ofChar_inj {a b : Char} : ofChar a = ofChar b ↔ a = b :=
  ofChar_injective.eq_iff

-- Surrogates are code points that no UTF encoding can carry.
def isHighSurrogate (c : CodePoint) : Bool := 0xD800 ≤ c.val && c.val ≤ 0xDBFF

def isLowSurrogate (c : CodePoint) : Bool := 0xDC00 ≤ c.val && c.val ≤ 0xDFFF

def isSurrogate (c : CodePoint) : Bool := 0xD800 ≤ c.val && c.val ≤ 0xDFFF

def isAscii (c : CodePoint) : Bool := c.val < 0x80

def quotation : CodePoint := 0x22

def apostrophe : CodePoint := 0x27

def backslash : CodePoint := 0x5C

end CodePoint

namespace Str

def ofString (s : String) : Str := s.toList.map CodePoint.ofChar

instance : Coe String Str := ⟨ofString⟩

theorem ofString_injective : Function.Injective ofString := by
  intro a b h
  exact String.toList_inj.mp (List.map_injective_iff.mpr CodePoint.ofChar_injective h)

@[simp] theorem ofString_inj {a b : String} : ofString a = ofString b ↔ a = b :=
  ofString_injective.eq_iff

@[simp] theorem ofString_eq_nil {a : String} : ofString a = [] ↔ a = "" := by
  rw [← ofString_inj]
  rfl

def startsWith (text affix : Str) : Bool := affix.isPrefixOf text

-- The text after a leading `affix`, if it starts with it.
def stripPrefix? (affix text : Str) : Option Str :=
  if affix.isPrefixOf text then some (text.drop affix.length) else none

theorem stripPrefix?_eq_some {affix text rest : Str} :
    stripPrefix? affix text = some rest ↔ text = affix ++ rest := by
  unfold stripPrefix?
  constructor
  · intro h
    split at h
    · rename_i hprefix
      obtain ⟨tail, rfl⟩ := List.isPrefixOf_iff_prefix.mp hprefix
      rw [List.drop_left] at h
      rw [Option.some.inj h]
    · cases h
  · rintro rfl
    rw [if_pos (List.isPrefixOf_iff_prefix.mpr (List.prefix_append _ _)), List.drop_left]

def join (separator : Str) : List Str → Str
  | [] => []
  | [text] => text
  | text :: rest => text ++ separator ++ join separator rest

instance isTrans_le : IsTrans Str (· ≤ ·) := inferInstance

instance antisymm_le : Std.Antisymm fun a b : Str => a ≤ b := inferInstance

instance total_le : Std.Total fun a b : Str => a ≤ b := inferInstance

-- Ordering is by code point, as Python compares strings.
def sorted (texts : List Str) : List Str := texts.insertionSort (· ≤ ·)

theorem sorted_perm (texts : List Str) : (sorted texts).Perm texts :=
  List.perm_insertionSort _ texts

@[simp] theorem mem_sorted {text : Str} {texts : List Str} : text ∈ sorted texts ↔ text ∈ texts :=
  (sorted_perm texts).mem_iff

theorem sorted_pairwise (texts : List Str) : (sorted texts).Pairwise (· ≤ ·) :=
  List.pairwise_insertionSort _ texts

theorem sorted_strict {texts : List Str} (h : texts.Nodup) : (sorted texts).Pairwise (· < ·) := by
  have hnodup : (sorted texts).Nodup := (sorted_perm texts).nodup_iff.mpr h
  exact (sorted_pairwise texts).imp₂ (fun _ _ hle hne => lt_of_le_of_ne hle hne) hnodup

-- Two sorted lists without repetitions agree as soon as their members do.
theorem eq_of_strict {a b : List Str} (ha : a.Pairwise (· < ·)) (hb : b.Pairwise (· < ·))
    (h : ∀ text, text ∈ a ↔ text ∈ b) : a = b := by
  have hperm : a.Perm b := (List.perm_ext_iff_of_nodup (ha.imp ne_of_lt) (hb.imp ne_of_lt)).mpr h
  exact List.Perm.eq_of_pairwise' (r := (· ≤ ·)) (ha.imp le_of_lt) (hb.imp le_of_lt) hperm

-- UTF-8, RFC 3629. A surrogate has no encoding.
def utf8Char (c : CodePoint) : Option (List UInt8) :=
  if c.isSurrogate then none
  else if c.val < 0x80 then some [UInt8.ofNat c.val]
  else if c.val < 0x800 then
    some [UInt8.ofNat (0xC0 + c.val / 0x40), UInt8.ofNat (0x80 + c.val % 0x40)]
  else if c.val < 0x10000 then
    some [UInt8.ofNat (0xE0 + c.val / 0x1000), UInt8.ofNat (0x80 + c.val / 0x40 % 0x40),
      UInt8.ofNat (0x80 + c.val % 0x40)]
  else
    some [UInt8.ofNat (0xF0 + c.val / 0x40000), UInt8.ofNat (0x80 + c.val / 0x1000 % 0x40),
      UInt8.ofNat (0x80 + c.val / 0x40 % 0x40), UInt8.ofNat (0x80 + c.val % 0x40)]

def utf8Encode : Str → Option (List UInt8)
  | [] => some []
  | c :: rest => do
      let head ← utf8Char c
      let tail ← utf8Encode rest
      return head ++ tail

-- Text that UTF-8 can carry: no surrogate stands in it.
def Encodable (text : Str) : Prop := ∀ c ∈ text, c.isSurrogate = false

instance (text : Str) : Decidable (Encodable text) :=
  List.decidableBAll (fun c : CodePoint => c.isSurrogate = false) text

-- A character of a literal is never a surrogate.
@[simp] theorem encodable_ofString (s : String) : Encodable (ofString s) := by
  intro c hc
  obtain ⟨char, -, rfl⟩ := List.mem_map.mp hc
  have hvalid : char.toNat < 0xD800 ∨ 0xDFFF < char.toNat ∧ char.toNat < 0x110000 := char.valid
  have hval : (CodePoint.ofChar char).val = char.toNat := rfl
  rw [CodePoint.isSurrogate, hval, Bool.and_eq_false_iff, decide_eq_false_iff_not,
    decide_eq_false_iff_not]
  omega

theorem utf8Char_isSome (c : CodePoint) : (utf8Char c).isSome ↔ c.isSurrogate = false := by
  unfold utf8Char
  cases hc : c.isSurrogate
  · simp only [Bool.false_eq_true, ite_false, iff_true]
    split <;> [rfl; split <;> [rfl; split <;> rfl]]
  · simp

theorem utf8Encode_isSome (text : Str) : (utf8Encode text).isSome ↔ Encodable text := by
  induction text with
  | nil => simp [utf8Encode, Encodable]
  | cons c rest ih =>
      have hc := utf8Char_isSome c
      simp only [Encodable, List.mem_cons, forall_eq_or_imp] at ih ⊢
      rw [← ih, ← hc]
      cases hhead : utf8Char c <;> cases htail : utf8Encode rest <;>
        simp [utf8Encode, hhead, htail]

theorem encodable_append {a b : Str} : Encodable (a ++ b) ↔ Encodable a ∧ Encodable b := by
  simp [Encodable, or_imp, forall_and]

-- The UTF-16 code units of a string, a lone surrogate standing for itself.
def utf16Char (c : CodePoint) : List Nat :=
  if c.val < 0x10000 then [c.val]
  else [0xD800 + (c.val - 0x10000) / 0x400, 0xDC00 + (c.val - 0x10000) % 0x400]

def utf16 (text : Str) : List Nat := text.flatMap utf16Char

theorem utf16Char_of_lt {c : CodePoint} (h : c.val < 0x10000) : utf16Char c = [c.val] := if_pos h

theorem utf16Char_of_not_lt {c : CodePoint} (h : ¬c.val < 0x10000) :
    utf16Char c = [0xD800 + (c.val - 0x10000) / 0x400, 0xDC00 + (c.val - 0x10000) % 0x400] := if_neg h

-- What has an encoding is told by its code units.
theorem utf16_inj {a b : Str} (ha : Encodable a) (hb : Encodable b) (h : utf16 a = utf16 b) : a = b := by
  induction a generalizing b with
  | nil =>
      cases b with
      | nil => rfl
      | cons c rest =>
          rw [utf16, utf16, List.flatMap_nil, List.flatMap_cons] at h
          by_cases hc : c.val < 0x10000
          · rw [utf16Char_of_lt hc] at h
            cases h
          · rw [utf16Char_of_not_lt hc] at h
            cases h
  | cons c rest ih =>
      cases b with
      | nil =>
          rw [utf16, utf16, List.flatMap_nil, List.flatMap_cons] at h
          by_cases hc : c.val < 0x10000
          · rw [utf16Char_of_lt hc] at h
            cases h
          · rw [utf16Char_of_not_lt hc] at h
            cases h
      | cons d more =>
          obtain ⟨hc, hrest⟩ := List.forall_mem_cons.mp ha
          obtain ⟨hd, hmore⟩ := List.forall_mem_cons.mp hb
          simp only [CodePoint.isSurrogate, Bool.and_eq_false_iff, decide_eq_false_iff_not] at hc hd
          have hcval := c.isLt
          have hdval := d.isLt
          have hsame : c.val = d.val ∧ utf16 rest = utf16 more := by
            rw [utf16, utf16, List.flatMap_cons, List.flatMap_cons] at h
            by_cases hcl : c.val < 0x10000 <;> by_cases hdl : d.val < 0x10000
            · rw [utf16Char_of_lt hcl, utf16Char_of_lt hdl, List.singleton_append, List.singleton_append,
                List.cons.injEq] at h
              exact h
            · rw [utf16Char_of_lt hcl, utf16Char_of_not_lt hdl] at h
              simp only [List.cons_append, List.nil_append, List.cons.injEq] at h
              omega
            · rw [utf16Char_of_not_lt hcl, utf16Char_of_lt hdl] at h
              simp only [List.cons_append, List.nil_append, List.cons.injEq] at h
              omega
            · rw [utf16Char_of_not_lt hcl, utf16Char_of_not_lt hdl] at h
              simp only [List.cons_append, List.nil_append, List.cons.injEq] at h
              obtain ⟨hhigh, hlow, htail⟩ := h
              exact ⟨by omega, htail⟩
          rw [Fin.ext hsame.1, ih hrest hmore hsame.2]

-- Decimal digits.
def digit (d : Nat) : CodePoint := ⟨(0x30 + d % 10), by omega⟩

def ofNat (n : Nat) : Str :=
  if n = 0 then [digit 0] else (Nat.digits 10 n).reverse.map digit

def ofInt (n : Int) : Str :=
  if n < 0 then CodePoint.ofChar '-' :: ofNat n.natAbs else ofNat n.natAbs

def hexDigit (d : Nat) : CodePoint :=
  if d % 16 < 10 then ⟨0x30 + d % 16, by omega⟩ else ⟨0x57 + d % 16, by omega⟩

-- The lowest `width` hexadecimal digits of `n`, most significant first.
def hexFixed : Nat → Nat → Str
  | 0, _ => []
  | width + 1, n => hexFixed width (n / 16) ++ [hexDigit n]

end Str

end Benzene.Data
