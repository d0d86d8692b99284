import Benzene.Data.JsonRoundTrip

namespace Benzene.Data

namespace Str

section Joined

-- Text without surrogates has no pairs of them.
theorem Encodable.joined {text : Str} (h : text.Encodable) : text.Joined := by
  induction text with
  | nil => exact List.isChain_nil
  | cons c text ih =>
      have hrest := ih fun d hd => h d (List.mem_cons_of_mem _ hd)
      cases text with
      | nil => exact List.isChain_singleton c
      | cons next text =>
          refine List.isChain_cons_cons.mpr ⟨fun hpair => ?_, hrest⟩
          have hc := h c List.mem_cons_self
          have hhigh := hpair.1
          simp only [CodePoint.isHighSurrogate, CodePoint.isSurrogate, Bool.and_eq_true,
            Bool.and_eq_false_iff, decide_eq_true_eq, decide_eq_false_iff_not] at hc hhigh
          omega

theorem joined_ofString (s : String) : Joined (ofString s) := (encodable_ofString s).joined

theorem joined_nil : Joined [] := List.isChain_nil

theorem joined_singleton (c : CodePoint) : Joined [c] := List.isChain_singleton c

end Joined

section Encodable

theorem encodable_nil : Encodable [] := by simp [Encodable]

theorem encodable_cons {c : CodePoint} {text : Str} :
    Encodable (c :: text) ↔ c.isSurrogate = false ∧ Encodable text := by
  simp [Encodable]

theorem encodable_flatMap {α : Type} {items : List α} {f : α → Str}
    (h : ∀ item ∈ items, Encodable (f item)) : Encodable (items.flatMap f) := by
  intro c hc
  obtain ⟨item, hitem, hmem⟩ := List.mem_flatMap.mp hc
  exact h item hitem c hmem

theorem isSurrogate_of_lt {c : CodePoint} (h : c.val < 0xD800) : c.isSurrogate = false := by
  rw [CodePoint.isSurrogate, Bool.and_eq_false_iff, decide_eq_false_iff_not]
  exact Or.inl (by omega)

theorem isSurrogate_digit (d : Nat) : (digit d).isSurrogate = false := by
  refine isSurrogate_of_lt ?_
  unfold digit
  dsimp only
  omega

theorem isSurrogate_hexDigit (d : Nat) : (hexDigit d).isSurrogate = false := by
  refine isSurrogate_of_lt ?_
  unfold hexDigit
  split <;> dsimp only <;> omega

theorem encodable_hexFixed (width n : Nat) : Encodable (hexFixed width n) := by
  induction width generalizing n with
  | zero => exact encodable_nil
  | succ width ih => exact encodable_append.mpr ⟨ih _, encodable_cons.mpr ⟨isSurrogate_hexDigit n, encodable_nil⟩⟩

theorem encodable_ofNat (n : Nat) : Encodable (ofNat n) := by
  unfold ofNat
  split
  · exact encodable_cons.mpr ⟨isSurrogate_digit 0, encodable_nil⟩
  · intro c hc
    obtain ⟨d, -, rfl⟩ := List.mem_map.mp hc
    exact isSurrogate_digit d

theorem encodable_ofInt (n : Int) : Encodable (ofInt n) := by
  unfold ofInt
  split
  · exact encodable_cons.mpr ⟨by decide, encodable_ofNat _⟩
  · exact encodable_ofNat _

theorem encodable_take {text : Str} (h : text.Encodable) (n : Nat) : Encodable (text.take n) :=
  fun c hc => h c (List.mem_of_mem_take hc)

theorem encodable_drop {text : Str} (h : text.Encodable) (n : Nat) : Encodable (text.drop n) :=
  fun c hc => h c (List.mem_of_mem_drop hc)

variable [UnicodeData]

theorem encodable_reprChar {quote : CodePoint} (hquote : quote.isSurrogate = false) (c : CodePoint) :
    Encodable (reprChar quote c) := by
  have hback : CodePoint.backslash.isSurrogate = false := by decide
  unfold reprChar
  split
  · rename_i h
    rcases h with rfl | rfl
    · exact encodable_cons.mpr ⟨hback, encodable_cons.mpr ⟨hquote, encodable_nil⟩⟩
    · exact encodable_cons.mpr ⟨hback, encodable_cons.mpr ⟨hback, encodable_nil⟩⟩
  · split
    · exact encodable_ofString _
    · split
      · exact encodable_ofString _
      · split
        · exact encodable_ofString _
        · split
          · rename_i hprintable
            refine encodable_cons.mpr ⟨?_, encodable_nil⟩
            unfold isPrintable at hprintable
            split at hprintable
            · rename_i hascii
              refine isSurrogate_of_lt ?_
              simp only [CodePoint.isAscii, decide_eq_true_eq] at hascii
              omega
            · simp only [Bool.and_eq_true, Bool.not_eq_true'] at hprintable
              exact hprintable.1
          · split
            · exact encodable_append.mpr ⟨encodable_ofString _, encodable_hexFixed _ _⟩
            · split <;> exact encodable_append.mpr ⟨encodable_ofString _, encodable_hexFixed _ _⟩

-- A representation escapes every surrogate.
theorem encodable_repr (text : Str) : Encodable (repr text) := by
  have hquote (p : Prop) [Decidable p] :
      (if p then CodePoint.quotation else CodePoint.apostrophe).isSurrogate = false := by
    split <;> decide
  unfold repr
  refine encodable_append.mpr ⟨encodable_cons.mpr ⟨hquote _, encodable_flatMap fun c _ => ?_⟩,
    encodable_cons.mpr ⟨hquote _, encodable_nil⟩⟩
  exact encodable_reprChar (hquote _) c

end Encodable

end Str

namespace PyFloat

open Str

theorem encodable_zeros (n : Int) : Encodable (zeros n) := by
  intro c hc
  rw [List.eq_of_mem_replicate hc]
  exact isSurrogate_digit 0

theorem encodable_exponentText (e : Int) : Encodable (exponentText e) := by
  unfold exponentText
  refine encodable_append.mpr ⟨encodable_ofString _, ?_⟩
  split
  · exact encodable_cons.mpr ⟨isSurrogate_digit 0, encodable_ofNat _⟩
  · exact encodable_ofNat _

theorem encodable_reprDecimal (d : Decimal) : Encodable (reprDecimal d) := by
  have hdigits := encodable_ofNat d.mantissa.natAbs
  have hbody : Encodable (reprDigits d) := by
    unfold reprDigits
    dsimp only
    split
    · refine encodable_append.mpr ⟨encodable_append.mpr ⟨encodable_take hdigits _, ?_⟩,
        encodable_exponentText _⟩
      split
      · exact encodable_nil
      · exact encodable_append.mpr ⟨encodable_ofString _, encodable_drop hdigits _⟩
    · split
      · exact encodable_append.mpr
          ⟨encodable_append.mpr ⟨encodable_ofString _, encodable_zeros _⟩, hdigits⟩
      · split
        · exact encodable_append.mpr
            ⟨encodable_append.mpr ⟨hdigits, encodable_zeros _⟩, encodable_ofString _⟩
        · exact encodable_append.mpr ⟨encodable_append.mpr
            ⟨encodable_take hdigits _, encodable_ofString _⟩, encodable_drop hdigits _⟩
  unfold reprDecimal
  split
  · exact encodable_append.mpr ⟨encodable_ofString _, hbody⟩
  · exact hbody

theorem encodable_repr (x : PyFloat) : Encodable x.repr := by
  cases x with
  | finite d => exact encodable_reprDecimal (shortest d)
  | infinity negative => cases negative <;> exact encodable_ofString _
  | nan => exact encodable_ofString _

end PyFloat

namespace Json

open Str

section Texts

variable [UnicodeData]

theorem encodable_repr (j : Json) : Encodable j.repr := by
  induction j using Json.induct with
  | null => exact encodable_ofString _
  | bool b => cases b <;> exact encodable_ofString _
  | int n => exact encodable_ofInt n
  | float x => exact x.encodable_repr
  | str s => exact Str.encodable_repr s
  | arr items ih =>
      have hitems : Encodable (reprItems items) := by
        induction items with
        | nil => exact encodable_nil
        | cons item rest ihrest =>
            have hitem := ih item List.mem_cons_self
            have hrest := ihrest fun other hother => ih other (List.mem_cons_of_mem _ hother)
            cases rest with
            | nil => exact hitem
            | cons next rest =>
                exact encodable_append.mpr
                  ⟨encodable_append.mpr ⟨hitem, encodable_ofString _⟩, hrest⟩
      exact encodable_append.mpr ⟨encodable_append.mpr ⟨encodable_ofString _, hitems⟩, encodable_ofString _⟩
  | obj fields ih =>
      have hfields : Encodable (reprFields fields) := by
        induction fields with
        | nil => exact encodable_nil
        | cons field rest ihrest =>
            obtain ⟨key, value⟩ := field
            have hfield : Encodable (Str.repr key ++ (": " : Str) ++ repr value) :=
              encodable_append.mpr ⟨encodable_append.mpr ⟨Str.encodable_repr key, encodable_ofString _⟩,
                ih (key, value) List.mem_cons_self⟩
            have hrest := ihrest fun other hother => ih other (List.mem_cons_of_mem _ hother)
            cases rest with
            | nil => exact hfield
            | cons next rest =>
                exact encodable_append.mpr
                  ⟨encodable_append.mpr ⟨hfield, encodable_ofString _⟩, hrest⟩
      exact encodable_append.mpr ⟨encodable_cons.mpr ⟨by decide, hfields⟩,
        encodable_cons.mpr ⟨by decide, encodable_nil⟩⟩

-- `str(x)` of a value joins no new pair.
theorem joined_text {j : Json} (h : j.WellFormed) : j.text.Joined := by
  cases j with
  | str s => exact h
  | _ => exact (encodable_repr _).joined

end Texts

section Written

theorem encodable_utf16 {c : CodePoint} : Encodable ((utf16Char c).flatMap unicodeEscape) := by
  apply encodable_flatMap
  intro unit _
  exact encodable_cons.mpr ⟨by decide, encodable_cons.mpr ⟨by decide, encodable_hexFixed 4 unit⟩⟩

theorem encodable_escapeChar (c : CodePoint) : Encodable (escapeChar c) := by
  unfold escapeChar
  split
  · rename_i letter hletter
    have hplain : letter.isSurrogate = false := by
      have hmem := Entries.mem_of_get? hletter
      simp only [shortEscapes, List.mem_cons, Prod.mk.injEq, List.not_mem_nil, or_false] at hmem
      rcases hmem with ⟨-, rfl⟩ | ⟨-, rfl⟩ | ⟨-, rfl⟩ | ⟨-, rfl⟩ | ⟨-, rfl⟩ | ⟨-, rfl⟩ | ⟨-, rfl⟩ <;> rfl
    exact encodable_cons.mpr ⟨by decide, encodable_cons.mpr ⟨hplain, encodable_nil⟩⟩
  · split
    · exact encodable_cons.mpr ⟨isSurrogate_of_lt (by omega), encodable_nil⟩
    · exact encodable_utf16

theorem encodable_encodeString (text : Str) : Encodable (encodeString text) := by
  unfold encodeString
  refine encodable_append.mpr ⟨encodable_cons.mpr ⟨by decide, ?_⟩, encodable_cons.mpr ⟨by decide, encodable_nil⟩⟩
  exact encodable_flatMap fun c _ => encodable_escapeChar c

theorem encodable_encodeFloat (x : PyFloat) : Encodable (encodeFloat x) := by
  cases x with
  | finite d => exact PyFloat.encodable_reprDecimal (PyFloat.shortest d)
  | infinity negative => cases negative <;> exact encodable_ofString _
  | nan => exact encodable_ofString _

theorem encodable_blank {blank : Str} (h : ∀ c ∈ blank, isWhitespace c = true) : Encodable blank := by
  intro c hc
  have hblank := h c hc
  apply isSurrogate_of_lt
  simp only [isWhitespace, Bool.or_eq_true, decide_eq_true_eq] at hblank
  omega

-- What `json.dumps` writes can be sent as UTF-8.
theorem encodable_dumpsWith (s : Separators) (j : Json) : Encodable (dumpsWith s j) := by
  have hcomma : comma.isSurrogate = false := by decide
  have hcolon : colon.isSurrogate = false := by decide
  induction j using Json.induct with
  | null => exact encodable_ofString _
  | bool b => cases b <;> exact encodable_ofString _
  | int n => exact encodable_ofInt n
  | float x => exact encodable_encodeFloat x
  | str text => exact encodable_encodeString text
  | arr items ih =>
      have hitems : Encodable (dumpsItemsWith s items) := by
        induction items with
        | nil => exact encodable_nil
        | cons item rest ihrest =>
            have hitem := ih item List.mem_cons_self
            have hrest := ihrest fun other hother => ih other (List.mem_cons_of_mem _ hother)
            cases rest with
            | nil => exact hitem
            | cons next rest =>
                exact encodable_append.mpr ⟨hitem, encodable_cons.mpr ⟨hcomma,
                  encodable_append.mpr ⟨encodable_blank s.blankItem, hrest⟩⟩⟩
      exact encodable_append.mpr ⟨encodable_cons.mpr ⟨by decide, hitems⟩,
        encodable_cons.mpr ⟨by decide, encodable_nil⟩⟩
  | obj fields ih =>
      have hfields : Encodable (dumpsFieldsWith s fields) := by
        induction fields with
        | nil => exact encodable_nil
        | cons field rest ihrest =>
            obtain ⟨key, value⟩ := field
            have hfield : Encodable (encodeString key ++ colon :: (s.key ++ dumpsWith s value)) :=
              encodable_append.mpr ⟨encodable_encodeString key, encodable_cons.mpr ⟨hcolon,
                encodable_append.mpr ⟨encodable_blank s.blankKey, ih (key, value) List.mem_cons_self⟩⟩⟩
            have hrest := ihrest fun other hother => ih other (List.mem_cons_of_mem _ hother)
            cases rest with
            | nil => exact hfield
            | cons next rest =>
                exact encodable_append.mpr ⟨hfield, encodable_cons.mpr ⟨hcomma,
                  encodable_append.mpr ⟨encodable_blank s.blankItem, hrest⟩⟩⟩
      exact encodable_append.mpr ⟨encodable_cons.mpr ⟨by decide, hfields⟩,
        encodable_cons.mpr ⟨by decide, encodable_nil⟩⟩

end Written

section Objects

def WellFormedObject (fields : Fields) : Prop := (Json.obj fields).WellFormed

theorem wellFormedObject_iff {fields : Fields} : WellFormedObject fields ↔
    (Entries.keys fields).Nodup ∧ ∀ field ∈ fields, field.1.Joined ∧ field.2.WellFormed := by
  rw [WellFormedObject, WellFormed, wellFormedFields_iff]

theorem wellFormed_get? {fields : Fields} (h : WellFormedObject fields) {key : Str} {value : Json}
    (hget : Entries.get? key fields = some value) : value.WellFormed :=
  ((wellFormedObject_iff.mp h).2 _ (Entries.mem_of_get? hget)).2

theorem wellFormed_getField {fields : Fields} (h : WellFormedObject fields) (key : Str) :
    (getField fields key).WellFormed := by
  unfold getField
  cases hget : Entries.get? key fields with
  | none => trivial
  | some value => exact wellFormed_get? h hget

theorem wellFormedObject_nil : WellFormedObject [] := wellFormedObject_iff.mpr ⟨List.nodup_nil, by simp⟩

theorem wellFormedObject_set {fields : Fields} (h : WellFormedObject fields) {key : Str}
    (hkey : key.Joined) {value : Json} (hvalue : value.WellFormed) :
    WellFormedObject (Entries.set key value fields) := by
  obtain ⟨hnodup, hfields⟩ := wellFormedObject_iff.mp h
  refine wellFormedObject_iff.mpr ⟨Entries.nodup_keys_set hnodup, fun field hfield => ?_⟩
  rcases Entries.mem_set hfield with rfl | hold
  · exact ⟨hkey, hvalue⟩
  · exact hfields field hold

theorem wellFormedObject_sublist {fields more : Fields} (h : WellFormedObject more)
    (hsub : fields.Sublist more) : WellFormedObject fields := by
  obtain ⟨hnodup, hfields⟩ := wellFormedObject_iff.mp h
  exact wellFormedObject_iff.mpr ⟨hnodup.sublist (hsub.map _), fun field hfield =>
    hfields field (hsub.subset hfield)⟩

theorem wellFormedObject_erase {fields : Fields} (h : WellFormedObject fields) (key : Str) :
    WellFormedObject (Entries.erase key fields) :=
  wellFormedObject_sublist h List.filter_sublist

theorem wellFormedObject_update {fields more : Fields} (h : WellFormedObject fields)
    (hmore : ∀ field ∈ more, field.1.Joined ∧ field.2.WellFormed) :
    WellFormedObject (Entries.update fields more) := by
  induction more generalizing fields with
  | nil => exact h
  | cons field rest ih =>
      obtain ⟨hkey, hvalue⟩ := hmore field List.mem_cons_self
      exact ih (wellFormedObject_set h hkey hvalue) fun other hother =>
        hmore other (List.mem_cons_of_mem _ hother)

theorem wellFormed_arr {items : List Json} : (Json.arr items).WellFormed ↔ ∀ item ∈ items, item.WellFormed := by
  rw [WellFormed, wellFormedItems_iff]

theorem wellFormed_iter {j : Json} (h : j.WellFormed) {items : List Json} (hiter : j.iter = .ok items) :
    ∀ item ∈ items, item.WellFormed := by
  intro item hitem
  cases j with
  | arr values =>
      cases hiter
      exact wellFormed_arr.mp h item hitem
  | obj fields =>
      cases hiter
      obtain ⟨field, hfield, rfl⟩ := List.mem_map.mp hitem
      exact ((wellFormedObject_iff.mp h).2 field hfield).1
  | str s =>
      cases hiter
      obtain ⟨c, -, rfl⟩ := List.mem_map.mp hitem
      exact joined_singleton c
  | _ => cases hiter

-- A value is the same as itself.
theorem same_refl {j : Json} (h : j.WellFormed) : same j j = true := by
  induction j using Json.induct with
  | null => rfl
  | bool b => simp [same]
  | int n => simp [same]
  | float x => simp [same]
  | str s => simp [same]
  | arr items ih =>
      have hitems := wellFormed_arr.mp h
      show sameItems items items = true
      clear h
      induction items with
      | nil => rfl
      | cons item rest ihrest =>
          obtain ⟨hitem, hrest⟩ := List.forall_mem_cons.mp hitems
          have hfirst := ih item List.mem_cons_self hitem
          have hothers := ihrest (fun other hother => ih other (List.mem_cons_of_mem _ hother)) hrest
          rw [sameItems, hfirst, hothers]
          rfl
  | obj fields ih =>
      obtain ⟨hnodup, hfields⟩ := wellFormedObject_iff.mp h
      have hpart (part : Fields) (hsub : part ⊆ fields) : sameFields part fields = true := by
        induction part with
        | nil => rfl
        | cons field rest ihrest =>
            obtain ⟨hmem, hrest⟩ := List.cons_subset.mp hsub
            have hget := Entries.get?_of_mem hnodup hmem
            have hvalue := ih field hmem (hfields field hmem).2
            rw [sameFields, hget, ihrest hrest]
            simpa using hvalue
      rw [same, hpart fields (List.Subset.refl fields)]
      simp

theorem wellFormedObject_mapValues {fields : Fields} (h : WellFormedObject fields) {f : Json → Json}
    (hf : ∀ field ∈ fields, (f field.2).WellFormed) : WellFormedObject (Entries.mapValues f fields) := by
  obtain ⟨hnodup, hfields⟩ := wellFormedObject_iff.mp h
  refine wellFormedObject_iff.mpr ⟨by rwa [Entries.keys_mapValues], fun field hfield => ?_⟩
  obtain ⟨original, horiginal, rfl⟩ := List.mem_map.mp hfield
  exact ⟨(hfields original horiginal).1, hf original horiginal⟩

end Objects

section Hereditary

-- A property that the members of a value have with it, and that an object keeps
-- when its members are changed for others that have it.
structure Hereditary (P : Json → Prop) : Prop where
  null : P .null
  empty : P (.obj [])
  arr {items : List Json} : P (.arr items) ↔ ∀ item ∈ items, P item
  member {fields : Fields} (h : P (.obj fields)) : ∀ field ∈ fields, P field.2
  mapped {fields : Fields} {f : Json → Json} (h : P (.obj fields)) (hf : ∀ field ∈ fields, P (f field.2)) :
    P (.obj (Entries.mapValues f fields))

theorem hereditary_wellFormed : Hereditary WellFormed where
  null := trivial
  empty := wellFormedObject_nil
  arr := wellFormed_arr
  member h := fun field hfield => ((wellFormedObject_iff.mp h).2 field hfield).2
  mapped h hf := wellFormedObject_mapValues h hf

theorem Hereditary.getField {P : Json → Prop} (hP : Hereditary P) {fields : Fields} (h : P (.obj fields))
    (key : Str) : P (getField fields key) := by
  unfold Json.getField
  cases hget : Entries.get? key fields with
  | none => exact hP.null
  | some value => exact hP.member h _ (Entries.mem_of_get? hget)

end Hereditary

end Json

end Benzene.Data
