import Benzene.Transport.AwsClients

namespace Benzene.Transport.Azure

open Benzene.Data
open Benzene.Core (encodeBody)
open Benzene.Transport.Lambda (base64Value base64Read)
open Benzene.Transport.Aws (base64Digit base64Digit_spec base64Pad b64encode base64Read_b64encode isAscii_b64encode)

section Decoder

def isBase64Char (c : CodePoint) : Bool := (base64Value c).isSome || c = base64Pad

-- `b64decode(text, validate=True)`: nothing but digits and padding is read. Padding in
-- a wrong place is told from the text that the bytes encode to.
def b64decodeValid (text : Str) : Except PyError (List UInt8) :=
  if text.all CodePoint.isAscii then
    if text.all isBase64Char then base64Read 0 0 0 text else .error ⟨.exception "Error", []⟩
  else .error ⟨.valueError, []⟩

-- A text is decoded where it is what its bytes encode to and they are UTF-8.
def decodeQueueText (text : Str) : Str :=
  match b64decodeValid text with
  | .error _ => text
  | .ok decoded => if b64encode decoded ≠ text then text else (Str.utf8Decode decoded).getD text

-- An object that carries a topic.
def benzeneEnvelope (text : Str) : Option Fields :=
  match Json.loads text with
  | some (.obj fields) => if ("topic" : Str) ∈ Entries.keys fields then some fields else none
  | _ => none

variable [UnicodeData]

def topicOr (value : Json) (defaultTopic : Str) : Str := if value.truthy then value.text else defaultTopic

def setItem (key value : Json) : List (Json × Json) → List (Json × Json)
  | [] => [(key, value)]
  | (k, v) :: rest => if Json.same k key then (k, value) :: rest else (k, v) :: setItem key value rest

def setPair (items : List (Json × Json)) (pair : Json) : Except PyError (List (Json × Json)) := do
  match ← pair.iter with
  | [key, value] => if key.hashable then return setItem key value items else .error ⟨.typeError, []⟩
  | _ => .error ⟨.valueError, []⟩

-- `dict(raw).items()`.
def dictItems (raw : Json) : Except PyError (List (Json × Json)) :=
  match raw with
  | .obj fields => .ok (fields.map fun field => (.str field.1, field.2))
  | raw => do (← raw.iter).foldlM setPair []

def headersOf (raw : Json) : Except PyError Attributes :=
  if raw.truthy then do
    return Entries.update [] ((← dictItems raw).map fun item => (Str.lower item.1.text, item.2.text))
  else .ok []

def bodyText : Json → Except PyError Str
  | .null => .ok []
  | .str text => .ok text
  | body => encodeBody (.ofJson body)

-- What a text that has been decoded is delivered as.
def deliver (defaultTopic text : Str) : Except PyError Fields :=
  match benzeneEnvelope text with
  | some fields => do
      return envelope (topicOr (Json.getField fields "topic") defaultTopic)
        (← headersOf (Json.getField fields "headers")) (← bodyText (Json.getField fields "body"))
  | none => .ok (envelope defaultTopic [] text)

def decodeQueueStorage (defaultTopic : Str) (body : Native) : Except PyError Fields := do
  deliver defaultTopic (decodeQueueText (← body.decoded))

end Decoder

section Encoded

variable {text : Str} {bytes : List UInt8}

theorem isBase64Char_digit {n : Nat} (h : n < 64) : isBase64Char (base64Digit n) = true := by
  rw [isBase64Char, (base64Digit_spec h).1]
  rfl

theorem isBase64Char_b64encode (bytes : List UInt8) : (b64encode bytes).all isBase64Char = true := by
  have hpad : isBase64Char base64Pad = true := rfl
  fun_induction b64encode bytes with
  | case1 => rfl
  | case2 a =>
      have ha := a.toNat_lt
      simp only [List.all_cons, List.all_nil, hpad]
      rw [isBase64Char_digit (by omega), isBase64Char_digit (by omega)]
      rfl
  | case3 a b =>
      have ha := a.toNat_lt
      have hb := b.toNat_lt
      simp only [List.all_cons, List.all_nil, hpad]
      rw [isBase64Char_digit (by omega), isBase64Char_digit (by omega), isBase64Char_digit (by omega)]
      rfl
  | case4 a b c rest ih =>
      have ha := a.toNat_lt
      have hb := b.toNat_lt
      have hc := c.toNat_lt
      simp only [List.all_cons, ih]
      rw [isBase64Char_digit (by omega), isBase64Char_digit (by omega), isBase64Char_digit (by omega),
        isBase64Char_digit (by omega)]
      rfl

theorem decodeQueueText_b64encode (h : Str.utf8Decode bytes = some text) :
    decodeQueueText (b64encode bytes) = text := by
  have hdecoded : b64decodeValid (b64encode bytes) = .ok bytes := by
    rw [b64decodeValid, if_pos (isAscii_b64encode bytes), if_pos (isBase64Char_b64encode bytes),
      base64Read_b64encode]
  rw [decodeQueueText, hdecoded]
  dsimp only
  rw [if_neg (not_not.mpr rfl), h, Option.getD_some]

-- The text is base64, in its one form, of a text in UTF-8.
def EncodesText (text : Str) : Prop := ∃ bytes inner, Str.utf8Decode bytes = some inner ∧ b64encode bytes = text

theorem decodeQueueText_plain (h : ¬EncodesText text) : decodeQueueText text = text := by
  unfold decodeQueueText
  cases hdecoded : b64decodeValid text with
  | error error => rfl
  | ok decoded =>
      dsimp only
      split
      · rfl
      · rename_i hencode
        cases hinner : Str.utf8Decode decoded with
        | none => rfl
        | some inner => exact absurd ⟨decoded, inner, hinner, not_not.mp hencode⟩ h

end Encoded

section First

variable {a : UInt8} {bytes : List UInt8} {text : Str}

theorem b64encode_cons (a : UInt8) (bytes : List UInt8) :
    ∃ low rest, low < 16 ∧
      b64encode (a :: bytes) = base64Digit (a.toNat / 4) :: base64Digit (a.toNat % 4 * 16 + low) :: rest := by
  match bytes with
  | [] => exact ⟨0, _, by decide, rfl⟩
  | [b] =>
      have hb := b.toNat_lt
      exact ⟨b.toNat / 16, _, by omega, rfl⟩
  | b :: c :: rest =>
      have hb := b.toNat_lt
      exact ⟨b.toNat / 16, _, by omega, rfl⟩

theorem le_of_decodedChar {least : Nat} {decoded : Nat × List UInt8} {c : CodePoint} {rest : List UInt8}
    (h : Str.decodedChar least decoded = some (c, rest)) : least ≤ c.val ∧ c.val = decoded.1 := by
  unfold Str.decodedChar at h
  split at h
  · dsimp only at h
    split at h
    · rename_i hleast
      cases h
      exact ⟨hleast.1, rfl⟩
    · cases h
  · cases h

-- A character of ASCII is its own byte.
theorem utf8Read_ascii {c : CodePoint} {rest : List UInt8} (h : Str.utf8Read a bytes = some (c, rest)) :
    c.val = a.toNat ∨ 0x80 ≤ c.val ∧ 0x80 ≤ a.toNat := by
  unfold Str.utf8Read at h
  split at h
  · exact .inl (le_of_decodedChar h).2
  · rename_i hascii
    right
    refine ⟨?_, by omega⟩
    split at h
    · cases h
    · split at h
      · obtain ⟨decoded, -, hchar⟩ := Option.bind_eq_some_iff.mp h
        exact (le_of_decodedChar hchar).1
      · split at h
        · obtain ⟨decoded, -, hchar⟩ := Option.bind_eq_some_iff.mp h
          have hle := (le_of_decodedChar hchar).1
          omega
        · split at h
          · obtain ⟨decoded, -, hchar⟩ := Option.bind_eq_some_iff.mp h
            have hle := (le_of_decodedChar hchar).1
            omega
          · cases h

theorem utf8Decode_cons (h : Str.utf8Decode (a :: bytes) = some text) :
    ∃ c rest, text = c :: rest ∧ (c.val = a.toNat ∨ 0x80 ≤ c.val ∧ 0x80 ≤ a.toNat) := by
  unfold Str.utf8Decode at h
  rw [List.length_cons, Str.utf8DecodeFrom] at h
  obtain ⟨⟨c, remaining⟩, hread, h⟩ := Option.bind_eq_some_iff.mp h
  obtain ⟨rest, -, h⟩ := Option.bind_eq_some_iff.mp h
  cases h
  exact ⟨c, rest, rfl, utf8Read_ascii hread⟩

end First

section Texts

variable {text : Str} {value : Json}

theorem base64Digit_plain {n : Nat} (h : n < 64) :
    Json.isWhitespace (base64Digit n) = false ∧ base64Digit n ≠ CodePoint.quotation ∧ base64Digit n ≠ 0x5B ∧
      base64Digit n ≠ 0x7B ∧ base64Digit n ≠ Json.minus ∧ (Json.isDigit (base64Digit n) = true → 52 ≤ n) := by
  have hdigits : ∀ n : Fin 64, Json.isWhitespace (base64Digit n) = false ∧ base64Digit n ≠ CodePoint.quotation ∧
      base64Digit n ≠ 0x5B ∧ base64Digit n ≠ 0x7B ∧ base64Digit n ≠ Json.minus ∧
      (Json.isDigit (base64Digit n) = true → 52 ≤ n.val) := by
    decide
  exact hdigits ⟨n, h⟩

theorem eq_of_base64Digit {n m : Nat} (h : n < 64) {c : CodePoint} (hc : some (base64Digit n) = some c)
    (hm : base64Value c = some m) : n = m := by
  rw [← Option.some.inj hc, (base64Digit_spec h).1] at hm
  exact Option.some.inj hm

theorem matchNumber_ne_obj {rest : Str} {fields : Fields} (h : Json.matchNumber text = some (value, rest)) :
    value ≠ .obj fields := by
  rintro rfl
  unfold Json.matchNumber at h
  obtain ⟨⟨integer, after⟩, -, h⟩ := Option.bind_eq_some_iff.mp h
  dsimp only at h
  split at h
  · cases h
  · split at h
    · cases h
    · cases h

theorem matchWord_some {rest : Str} (h : Json.matchWord text = some (value, rest)) :
    ∃ word, (word, value) ∈ Json.words ∧ text = word ++ rest := by
  obtain ⟨word, hword, h⟩ := List.exists_of_findSome?_eq_some h
  obtain ⟨tail, htail, h⟩ := Option.map_eq_some_iff.mp h
  cases h
  exact ⟨word.1, hword, Str.stripPrefix?_eq_some.mp htail⟩

-- A text that starts with a character of its own, and with no string, array or object.
theorem loads_scalar {c : CodePoint} {rest : Str} (hblank : Json.isWhitespace c = false)
    (hquote : c ≠ CodePoint.quotation) (hbracket : c ≠ 0x5B) (hbrace : c ≠ 0x7B)
    (h : Json.loads (c :: rest) = some value) :
    ∃ tail, Json.matchNumber (c :: rest) = some (value, tail) ∨ Json.matchWord (c :: rest) = some (value, tail) := by
  have hskip : Json.skipWhitespace (c :: rest) = c :: rest := List.dropWhile_cons_of_neg (by simp [hblank])
  unfold Json.loads at h
  rw [hskip, List.length_cons, Json.scanOnce, if_neg hquote, if_neg hbracket, if_neg hbrace] at h
  obtain ⟨⟨found, tail⟩, hfound, h⟩ := Option.bind_eq_some_iff.mp h
  dsimp only at h
  split at h
  · cases h
    exact ⟨tail, (Option.or_eq_some_iff.mp hfound).imp id And.right⟩
  · cases h

-- An envelope starts with a brace, or with what JSON passes over.
theorem loads_obj {c : CodePoint} {rest : Str} {fields : Fields} (h : Json.loads (c :: rest) = some (.obj fields)) :
    Json.isWhitespace c = true ∨ c = 0x7B := by
  by_contra hstart
  rw [not_or, Bool.not_eq_true] at hstart
  obtain ⟨hblank, hbrace⟩ := hstart
  have hskip : Json.skipWhitespace (c :: rest) = c :: rest := List.dropWhile_cons_of_neg (by simp [hblank])
  by_cases hopening : c = CodePoint.quotation ∨ c = 0x5B
  · unfold Json.loads at h
    rw [hskip, List.length_cons, Json.scanOnce] at h
    obtain ⟨⟨found, tail⟩, hfound, h⟩ := Option.bind_eq_some_iff.mp h
    dsimp only at h
    split at h
    · cases h
      split at hfound
      · cases hscan : Json.scanString (rest.length + 1) rest with
        | none => simp [hscan] at hfound
        | some scanned => simp [hscan] at hfound
      · rw [if_pos (hopening.resolve_left ‹_›)] at hfound
        split at hfound
        · cases hfound
        · obtain ⟨parsed, -, hparsed⟩ := Option.map_eq_some_iff.mp hfound
          cases hparsed
    · cases h
  · rw [not_or] at hopening
    obtain ⟨tail, hnumber | hword⟩ := loads_scalar hblank hopening.1 hopening.2 hbrace h
    · exact matchNumber_ne_obj hnumber rfl
    · obtain ⟨word, hmem, -⟩ := matchWord_some hword
      simp [Json.words] at hmem

-- The first character of a JSON text that is base64, and the one after a capital i.
theorem base64Value_loads {first second : Nat} {rest : Str} (hfirst : first < 64) (hsecond : second < 64)
    (h : Json.loads (base64Digit first :: base64Digit second :: rest) = some value) :
    52 ≤ first ∨ first ∈ [13, 31, 39, 45] ∨ first = 8 ∧ second = 39 := by
  obtain ⟨hblank, hquote, hbracket, hbrace, hminus, hdigit⟩ := base64Digit_plain hfirst
  obtain ⟨tail, hnumber | hword⟩ := loads_scalar hblank hquote hbracket hbrace h
  · obtain ⟨c, others, hcons, hc⟩ := Json.matchNumber_head hnumber
    obtain ⟨rfl, -⟩ := List.cons.inj hcons
    exact .inl (hdigit (hc.resolve_right hminus))
  · right
    obtain ⟨word, hmem, htext⟩ := matchWord_some hword
    have hhead : some (base64Digit first) = (word ++ tail).head? := congrArg List.head? htext
    simp only [Json.words, List.mem_cons, List.not_mem_nil, or_false, Prod.mk.injEq] at hmem
    rcases hmem with ⟨rfl, -⟩ | ⟨rfl, -⟩ | ⟨rfl, -⟩ | ⟨rfl, -⟩ | ⟨rfl, -⟩ | ⟨rfl, -⟩
    · have hn : first = 39 := @eq_of_base64Digit _ _ hfirst 0x6E hhead rfl
      exact .inl (by simp [hn])
    · have ht : first = 45 := @eq_of_base64Digit _ _ hfirst 0x74 hhead rfl
      exact .inl (by simp [ht])
    · have hf : first = 31 := @eq_of_base64Digit _ _ hfirst 0x66 hhead rfl
      exact .inl (by simp [hf])
    · have hN : first = 13 := @eq_of_base64Digit _ _ hfirst 0x4E hhead rfl
      exact .inl (by simp [hN])
    · have hI : first = 8 := @eq_of_base64Digit _ _ hfirst 0x49 hhead rfl
      have hnext : some (base64Digit second) = some (0x6E : CodePoint) :=
        congrArg (fun text => text.tail.head?) htext
      exact .inr ⟨hI, eq_of_base64Digit hsecond hnext rfl⟩
    · have hm : base64Digit first = Json.minus := Option.some.inj hhead
      exact absurd hm hminus

theorem benzeneEnvelope_eq_none (h : ∀ fields, Json.loads text ≠ some (.obj fields)) : benzeneEnvelope text = none := by
  unfold benzeneEnvelope
  split
  · rename_i fields hloads
    exact absurd hloads (h fields)
  · rfl

-- A JSON text that is base64 is a number or a word, and what it encodes is another text
-- that is no envelope either.
theorem no_envelope_of_encodes {bytes : List UInt8} {inner : Str} (hloads : Json.loads (b64encode bytes) = some value)
    (hinner : Str.utf8Decode bytes = some inner) :
    benzeneEnvelope (b64encode bytes) = none ∧ benzeneEnvelope inner = none ∧ inner ≠ b64encode bytes := by
  cases bytes with
  | nil => cases hloads
  | cons a bytes =>
      have ha := a.toNat_lt
      obtain ⟨low, rest, hlow, hencode⟩ := b64encode_cons a bytes
      obtain ⟨c, others, rfl, hc⟩ := utf8Decode_cons hinner
      rw [hencode] at hloads ⊢
      have hfirst : a.toNat / 4 < 64 := by omega
      have hstart := base64Value_loads hfirst (by omega) hloads
      obtain ⟨hblank, -, -, hbrace, -⟩ := base64Digit_plain hfirst
      simp only [List.mem_cons, List.not_mem_nil, or_false] at hstart
      refine ⟨?_, ?_, ?_⟩
      · apply benzeneEnvelope_eq_none
        intro fields hobj
        rcases loads_obj hobj with hspace | hopening
        · rw [hblank] at hspace
          cases hspace
        · exact hbrace hopening
      · apply benzeneEnvelope_eq_none
        intro fields hobj
        have hval : c.val = 0x20 ∨ c.val = 9 ∨ c.val = 10 ∨ c.val = 13 ∨ c.val = 0x7B := by
          rcases loads_obj hobj with hspace | hopening
          · simp only [Json.isWhitespace, Bool.or_eq_true, decide_eq_true_eq] at hspace
            omega
          · rw [hopening]
            decide
        omega
      · intro hsame
        obtain ⟨hfirstChar, -⟩ := List.cons.inj hsame
        have hascii : c.val < 0x80 := by
          have hdigit := (base64Digit_spec hfirst).2.2
          rw [← hfirstChar] at hdigit
          exact of_decide_eq_true hdigit
        have hown : (base64Digit (a.toNat / 4)).val = a.toNat := by
          rw [← hfirstChar]
          omega
        rcases hstart with hdigit | hword | ⟨hcapital, -⟩
        · omega
        · rcases hword with hword | hword | hword | hword
          · rw [hword] at hown
            have hn : (base64Digit 13).val = 78 := by decide
            omega
          · rw [hword] at hown
            have hf : (base64Digit 31).val = 102 := by decide
            omega
          · omega
          · omega
        · rw [hcapital] at hown
          have hi : (base64Digit 8).val = 73 := by decide
          omega

end Texts

section Delivery

variable [UnicodeData]

def HasBody (text : Str) (outcome : Except PyError Fields) : Prop :=
  ∃ topic headers, outcome = .ok (envelope topic headers text)

-- A text is delivered as the body, and an envelope as what it says, whether the text is
-- sent as it is or as the base64 of its bytes.
structure DeliveredAsSent (defaultTopic text : Str) (bytes : List UInt8) : Prop where
  plain : benzeneEnvelope text = none → ∀ body : Native, body.decoded = .ok text →
    HasBody text (decodeQueueStorage defaultTopic body)
  encoded : benzeneEnvelope text = none → ∀ body : Native, body.decoded = .ok (b64encode bytes) →
    HasBody text (decodeQueueStorage defaultTopic body)
  same : benzeneEnvelope text ≠ none → ∀ plain encoded : Native, plain.decoded = .ok text →
    encoded.decoded = .ok (b64encode bytes) →
    decodeQueueStorage defaultTopic plain = decodeQueueStorage defaultTopic encoded

variable {defaultTopic text : Str} {bytes : List UInt8}

theorem decodeQueueStorage_of_decoded {body : Native} (h : body.decoded = .ok text) :
    decodeQueueStorage defaultTopic body = deliver defaultTopic (decodeQueueText text) := by
  rw [decodeQueueStorage, h]
  rfl

theorem deliver_body (h : benzeneEnvelope text = none) :
    deliver defaultTopic text = .ok (envelope defaultTopic [] text) := by
  rw [deliver, h]

omit [UnicodeData] in
theorem envelope_body {topic topic' body body' : Str} {headers headers' : Attributes}
    (h : envelope topic headers body = envelope topic' headers' body') : body = body' := by
  have hbody := congrArg (Entries.get? ("body" : Str)) h
  exact Json.str.inj (Option.some.inj hbody)

theorem deliveredAsSent_of_plain (hbytes : Str.utf8Encode text = some bytes) (h : ¬EncodesText text) :
    DeliveredAsSent defaultTopic text bytes := by
  have hencoded := decodeQueueText_b64encode (Str.utf8Decode_utf8Encode hbytes)
  have hplain := decodeQueueText_plain h
  constructor
  · intro hnone body hbody
    rw [decodeQueueStorage_of_decoded hbody, hplain]
    exact ⟨_, _, deliver_body hnone⟩
  · intro hnone body hbody
    rw [decodeQueueStorage_of_decoded hbody, hencoded]
    exact ⟨_, _, deliver_body hnone⟩
  · intro _ plain encoded hsent hsentEncoded
    rw [decodeQueueStorage_of_decoded hsent, decodeQueueStorage_of_decoded hsentEncoded, hplain, hencoded]

theorem plain_of_deliveredAsSent {value : Json} (hloads : Json.loads text = some value)
    (h : DeliveredAsSent defaultTopic text bytes) : ¬EncodesText text := by
  rintro ⟨encoded, inner, hinner, rfl⟩
  obtain ⟨hnone, hinnerNone, hne⟩ := no_envelope_of_encodes hloads hinner
  obtain ⟨topic, headers, hbody⟩ := h.plain hnone (.other _) rfl
  rw [decodeQueueStorage_of_decoded rfl, decodeQueueText_b64encode hinner, deliver_body hinnerNone] at hbody
  exact hne (envelope_body (Except.ok.inj hbody))

-- A JSON text is delivered as it was sent, either way, just where it is not the base64
-- of a text itself.
theorem decodeQueueStorage_delivers {value : Json} (hloads : Json.loads text = some value)
    (hbytes : Str.utf8Encode text = some bytes) :
    DeliveredAsSent defaultTopic text bytes ↔ ¬EncodesText text :=
  ⟨plain_of_deliveredAsSent hloads, deliveredAsSent_of_plain hbytes⟩

end Delivery

section Sent

theorem decodeQueueStorage_delivers_object :
    letI := UnicodeData.ascii
    DeliveredAsSent [] "{}" [0x7B, 0x7D] ↔ ¬EncodesText "{}" := by
  let _ := UnicodeData.ascii
  exact @decodeQueueStorage_delivers _ [] "{}" [0x7B, 0x7D] (.obj []) (by decide) (by decide)

-- The digits are the base64 of two characters.
theorem number_delivered_as_letters :
    letI := UnicodeData.ascii
    Json.loads "1400" = some (.int 1400) ∧ Str.utf8Encode "1400" = some [0x31, 0x34, 0x30, 0x30] ∧
      ¬DeliveredAsSent [] "1400" [0x31, 0x34, 0x30, 0x30] := by
  let _ := UnicodeData.ascii
  refine ⟨by decide +kernel, by decide, ?_⟩
  intro h
  have htext : decodeQueueText "1400" = [0x5CD, 0x34] := by decide +kernel
  have hnone : benzeneEnvelope [0x5CD, 0x34] = none := by decide +kernel
  obtain ⟨topic, headers, hbody⟩ := h.plain (by decide +kernel) (.other "1400") rfl
  rw [decodeQueueStorage_of_decoded rfl, htext, deliver_body hnone] at hbody
  exact absurd (envelope_body (Except.ok.inj hbody)) (by decide)

end Sent

end Benzene.Transport.Azure
