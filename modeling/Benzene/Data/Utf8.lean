import Benzene.Data.Text

namespace Benzene.Data.Str

section Decoding

-- The next `count` continuation bytes, six bits each, behind `value`.
def continuation : Nat → Nat → List UInt8 → Option (Nat × List UInt8)
  | 0, value, bytes => some (value, bytes)
  | _ + 1, _, [] => none
  | count + 1, value, b :: bytes =>
      if 0x80 ≤ b.toNat ∧ b.toNat < 0xC0 then
        continuation count (value * 0x40 + (b.toNat - 0x80)) bytes
      else none

-- A code point that has no shorter form and is no surrogate.
def decodedChar (least : Nat) (decoded : Nat × List UInt8) : Option (CodePoint × List UInt8) :=
  if h : decoded.1 < 0x110000 then
    let c : CodePoint := ⟨decoded.1, h⟩
    if least ≤ decoded.1 ∧ c.isSurrogate = false then some (c, decoded.2) else none
  else none

-- One character, where `a` is the first of its bytes.
def utf8Read (a : UInt8) (bytes : List UInt8) : Option (CodePoint × List UInt8) :=
  if a.toNat < 0x80 then decodedChar 0 (a.toNat, bytes)
  else if a.toNat < 0xC0 then none
  else if a.toNat < 0xE0 then (continuation 1 (a.toNat - 0xC0) bytes).bind (decodedChar 0x80)
  else if a.toNat < 0xF0 then (continuation 2 (a.toNat - 0xE0) bytes).bind (decodedChar 0x800)
  else if a.toNat < 0xF8 then (continuation 3 (a.toNat - 0xF0) bytes).bind (decodedChar 0x10000)
  else none

def utf8DecodeFrom : Nat → List UInt8 → Option Str
  | _, [] => some []
  | 0, _ :: _ => none
  | fuel + 1, a :: bytes => do
      let (c, rest) ← utf8Read a bytes
      let text ← utf8DecodeFrom fuel rest
      return c :: text

-- `bytes.decode("utf-8")`, `none` where it raises `UnicodeDecodeError`.
def utf8Decode (bytes : List UInt8) : Option Str := utf8DecodeFrom bytes.length bytes

-- What follows the longest start of a character, with `a` its first byte, that
-- breaks off before its last.
def brokenOff (a : UInt8) (bytes : List UInt8) : List UInt8 :=
  let second (b : UInt8) : Bool :=
    if a = 0xE0 then 0xA0 ≤ b ∧ b < 0xC0
    else if a = 0xED then 0x80 ≤ b ∧ b < 0xA0
    else if a = 0xF0 then 0x90 ≤ b ∧ b < 0xC0
    else if a = 0xF4 then 0x80 ≤ b ∧ b < 0x90
    else 0x80 ≤ b ∧ b < 0xC0
  if 0xE0 ≤ a ∧ a < 0xF0 then
    match bytes with
    | b :: rest => if second b then rest else bytes
    | [] => []
  else if 0xF0 ≤ a ∧ a < 0xF5 then
    match bytes with
    | b :: c :: rest => if second b then if 0x80 ≤ c ∧ c < 0xC0 then rest else c :: rest else bytes
    | [b] => if second b then [] else bytes
    | [] => []
  else bytes

def utf8ReplaceFrom : Nat → List UInt8 → Str
  | _, [] => []
  | 0, _ :: _ => []
  | fuel + 1, a :: bytes =>
      match utf8Read a bytes with
      | some (c, rest) => c :: utf8ReplaceFrom fuel rest
      | none => 0xFFFD :: utf8ReplaceFrom fuel (brokenOff a bytes)

-- `bytes.decode("utf-8", "replace")`.
def utf8Replace (bytes : List UInt8) : Str := utf8ReplaceFrom bytes.length bytes

-- A text file read with universal newlines. `returned` says that the character
-- before was a carriage return, which has been written as a line feed already.
def translateNewlines : Bool → Str → Str
  | _, [] => []
  | returned, c :: rest =>
      if c = 0x0D then 0x0A :: translateNewlines true rest
      else if c = 0x0A ∧ returned then translateNewlines false rest
      else c :: translateNewlines false rest

def universalNewlines (text : Str) : Str := translateNewlines false text

end Decoding

section RoundTrip

theorem continuation_succ {b : UInt8} {low : Nat} (hb : b.toNat = 0x80 + low) (hlow : low < 0x40)
    (count value : Nat) (bytes : List UInt8) :
    continuation (count + 1) value (b :: bytes) = continuation count (value * 0x40 + low) bytes := by
  have hrange : 0x80 ≤ b.toNat ∧ b.toNat < 0xC0 := by omega
  have hvalue : b.toNat - 0x80 = low := by omega
  rw [continuation, if_pos hrange, hvalue]

theorem decodedChar_of {c : CodePoint} {least : Nat} (hleast : least ≤ c.val)
    (hc : c.isSurrogate = false) (bytes : List UInt8) :
    decodedChar least (c.val, bytes) = some (c, bytes) := by
  rw [decodedChar, dif_pos c.isLt, if_pos ⟨hleast, hc⟩]

theorem toNat_ofNat {n : Nat} (h : n < 256) : (UInt8.ofNat n).toNat = n := by
  rw [UInt8.toNat_ofNat']
  exact Nat.mod_eq_of_lt h

-- The bytes of one character read back.
theorem utf8Read_utf8Char {c : CodePoint} {head : List UInt8} (h : utf8Char c = some head)
    (rest : List UInt8) : ∃ a bytes, head ++ rest = a :: bytes ∧ utf8Read a bytes = some (c, rest) := by
  have hlt := c.isLt
  unfold utf8Char at h
  cases hc : c.isSurrogate with
  | true => simp [hc] at h
  | false =>
      rw [hc, if_neg Bool.false_ne_true] at h
      split at h
      · rename_i hsmall
        cases h
        have ha : (UInt8.ofNat c.val).toNat = c.val := toNat_ofNat (by omega)
        refine ⟨_, rest, rfl, ?_⟩
        rw [utf8Read, ha, if_pos hsmall]
        exact decodedChar_of (by omega) hc rest
      split at h
      · rename_i hone hsmall
        cases h
        have ha : (UInt8.ofNat (0xC0 + c.val / 0x40)).toNat = 0xC0 + c.val / 0x40 :=
          toNat_ofNat (by omega)
        have hb : (UInt8.ofNat (0x80 + c.val % 0x40)).toNat = 0x80 + c.val % 0x40 :=
          toNat_ofNat (by omega)
        have hvalue : (0xC0 + c.val / 0x40 - 0xC0) * 0x40 + c.val % 0x40 = c.val := by omega
        refine ⟨_, UInt8.ofNat (0x80 + c.val % 0x40) :: rest, rfl, ?_⟩
        rw [utf8Read, ha, if_neg (by omega), if_neg (by omega), if_pos (by omega),
          continuation_succ hb (by omega), continuation, hvalue, Option.bind_some]
        exact decodedChar_of (by omega) hc rest
      split at h
      · rename_i hone htwo hsmall
        cases h
        have ha : (UInt8.ofNat (0xE0 + c.val / 0x1000)).toNat = 0xE0 + c.val / 0x1000 :=
          toNat_ofNat (by omega)
        have hb : (UInt8.ofNat (0x80 + c.val / 0x40 % 0x40)).toNat = 0x80 + c.val / 0x40 % 0x40 :=
          toNat_ofNat (by omega)
        have hd : (UInt8.ofNat (0x80 + c.val % 0x40)).toNat = 0x80 + c.val % 0x40 :=
          toNat_ofNat (by omega)
        have hvalue : ((0xE0 + c.val / 0x1000 - 0xE0) * 0x40 + c.val / 0x40 % 0x40) * 0x40 +
            c.val % 0x40 = c.val := by omega
        refine ⟨_, UInt8.ofNat (0x80 + c.val / 0x40 % 0x40) :: UInt8.ofNat (0x80 + c.val % 0x40) :: rest, rfl, ?_⟩
        rw [utf8Read, ha, if_neg (by omega), if_neg (by omega), if_neg (by omega),
          if_pos (by omega)]
        rw [continuation_succ hb (by omega), continuation_succ hd (by omega), continuation, hvalue,
          Option.bind_some]
        exact decodedChar_of (by omega) hc rest
      · rename_i hone htwo hthree
        cases h
        have ha : (UInt8.ofNat (0xF0 + c.val / 0x40000)).toNat = 0xF0 + c.val / 0x40000 :=
          toNat_ofNat (by omega)
        have hb : (UInt8.ofNat (0x80 + c.val / 0x1000 % 0x40)).toNat =
            0x80 + c.val / 0x1000 % 0x40 := toNat_ofNat (by omega)
        have hd : (UInt8.ofNat (0x80 + c.val / 0x40 % 0x40)).toNat = 0x80 + c.val / 0x40 % 0x40 :=
          toNat_ofNat (by omega)
        have he : (UInt8.ofNat (0x80 + c.val % 0x40)).toNat = 0x80 + c.val % 0x40 :=
          toNat_ofNat (by omega)
        have hvalue : (((0xF0 + c.val / 0x40000 - 0xF0) * 0x40 + c.val / 0x1000 % 0x40) * 0x40 +
            c.val / 0x40 % 0x40) * 0x40 + c.val % 0x40 = c.val := by omega
        refine ⟨_, UInt8.ofNat (0x80 + c.val / 0x1000 % 0x40) :: UInt8.ofNat (0x80 + c.val / 0x40 % 0x40) ::
          UInt8.ofNat (0x80 + c.val % 0x40) :: rest, rfl, ?_⟩
        rw [utf8Read, ha, if_neg (by omega), if_neg (by omega), if_neg (by omega),
          if_neg (by omega), if_pos (by omega)]
        rw [continuation_succ hb (by omega), continuation_succ hd (by omega),
          continuation_succ he (by omega), continuation, hvalue, Option.bind_some]
        exact decodedChar_of (by omega) hc rest

-- What is encoded decodes to itself.
theorem utf8DecodeFrom_utf8Encode {text : Str} {bytes : List UInt8} (h : utf8Encode text = some bytes)
    (fuel : Nat) (hfuel : bytes.length ≤ fuel) : utf8DecodeFrom fuel bytes = some text := by
  induction text generalizing bytes fuel with
  | nil =>
      cases h
      cases fuel <;> rfl
  | cons c text ih =>
      cases hhead : utf8Char c with
      | none => simp [utf8Encode, hhead] at h
      | some head =>
          cases htail : utf8Encode text with
          | none => simp [utf8Encode, hhead, htail] at h
          | some tail =>
              simp only [utf8Encode, hhead, htail, Option.bind_eq_bind, Option.bind_some, Option.pure_def,
                Option.some.injEq] at h
              obtain ⟨a, rest, happend, hread⟩ := utf8Read_utf8Char hhead tail
              have hlength : tail.length < bytes.length := by
                have hne : head ≠ [] := by
                  rintro rfl
                  unfold utf8Char at hhead
                  split at hhead
                  · cases hhead
                  · split at hhead
                    · cases hhead
                    · split at hhead
                      · cases hhead
                      · split at hhead <;> cases hhead
                have hpos : 0 < head.length := List.length_pos_of_ne_nil hne
                rw [← h, List.length_append]
                omega
              obtain ⟨fuel, rfl⟩ : ∃ k, fuel = k + 1 := ⟨fuel - 1, by omega⟩
              have hrest := ih htail fuel (by omega)
              rw [← h, happend]
              simp only [utf8DecodeFrom, hread, hrest, Option.bind_eq_bind, Option.bind_some,
                Option.pure_def]

theorem utf8Decode_utf8Encode {text : Str} {bytes : List UInt8} (h : utf8Encode text = some bytes) :
    utf8Decode bytes = some text :=
  utf8DecodeFrom_utf8Encode h bytes.length le_rfl

end RoundTrip

end Benzene.Data.Str
