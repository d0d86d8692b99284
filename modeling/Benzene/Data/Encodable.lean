import Benzene.Data.WellFormed

namespace Benzene.Data

namespace Json

open Str

section Encodable

mutual

-- The strings and the keys of the value can be sent as UTF-8 as they are.
def encodable : Json → Bool
  | .str text => decide (Str.Encodable text)
  | .arr items => encodableItems items
  | .obj fields => encodableFields fields
  | _ => true

def encodableItems : List Json → Bool
  | [] => true
  | item :: rest => encodable item && encodableItems rest

def encodableFields : Fields → Bool
  | [] => true
  | (key, value) :: rest => decide (Str.Encodable key) && encodable value && encodableFields rest

end

theorem encodable_str {text : Str} : (Json.str text).encodable = true ↔ Str.Encodable text := by
  rw [encodable, decide_eq_true_eq]

theorem encodable_arr {items : List Json} :
    (Json.arr items).encodable = true ↔ ∀ item ∈ items, item.encodable = true := by
  rw [encodable]
  induction items with
  | nil => simp [encodableItems]
  | cons item rest ih => simp [encodableItems, ih]

theorem encodable_obj {fields : Fields} :
    (Json.obj fields).encodable = true ↔ ∀ field ∈ fields, Str.Encodable field.1 ∧ field.2.encodable = true := by
  rw [encodable]
  induction fields with
  | nil => simp [encodableFields]
  | cons field rest ih =>
      obtain ⟨key, value⟩ := field
      simp [encodableFields, ih]

theorem encodable_obj_cons {key : Str} {value : Json} {rest : Fields} :
    (Json.obj ((key, value) :: rest)).encodable = true ↔
      Str.Encodable key ∧ value.encodable = true ∧ (Json.obj rest).encodable = true := by
  simp only [encodable_obj, List.forall_mem_cons, and_assoc]

theorem encodable_obj_nil : (Json.obj []).encodable = true := rfl

-- A member that the text of a source names.
theorem encodable_field {key : String} {value : Json} {rest : Fields} :
    (Json.obj (field key value :: rest)).encodable = true ↔
      value.encodable = true ∧ (Json.obj rest).encodable = true := by
  rw [encodable_obj_cons, and_iff_right (encodable_ofString key)]

theorem encodable_append_fields {first second : Fields} :
    (Json.obj (first ++ second)).encodable = true ↔
      (Json.obj first).encodable = true ∧ (Json.obj second).encodable = true := by
  simp only [encodable_obj, List.forall_mem_append]

theorem hereditary_encodable : Hereditary fun j => j.encodable = true where
  null := rfl
  empty := rfl
  arr := encodable_arr
  member h := fun field hfield => (encodable_obj.mp h field hfield).2
  mapped h hf := by
    rw [encodable_obj] at h ⊢
    intro field hfield
    obtain ⟨original, horiginal, rfl⟩ := List.mem_map.mp hfield
    exact ⟨(h original horiginal).1, hf original horiginal⟩

theorem encodable_getField {fields : Fields} (h : (Json.obj fields).encodable = true) (key : Str) :
    (getField fields key).encodable = true :=
  hereditary_encodable.getField h key

theorem encodable_set {fields : Fields} (h : (Json.obj fields).encodable = true) {key : Str} (hkey : Str.Encodable key)
    {value : Json} (hvalue : value.encodable = true) :
    (Json.obj (Entries.set key value fields)).encodable = true := by
  rw [encodable_obj] at h ⊢
  intro field hfield
  rcases Entries.mem_set hfield with rfl | hold
  · exact ⟨hkey, hvalue⟩
  · exact h field hold

theorem encodable_orElse {x y : Json} (hx : x.encodable = true) (hy : y.encodable = true) :
    (Json.orElse x y).encodable = true := by
  unfold Json.orElse
  split
  · exact hx
  · exact hy

-- The text of a value holds what its strings hold.
theorem encodable_text [UnicodeData] {j : Json} (h : j.encodable = true) : Str.Encodable j.text := by
  cases j with
  | str text => exact encodable_str.mp h
  | _ => exact encodable_repr _

end Encodable

section Raw

theorem encodable_escapeRawChar {c : CodePoint} : Str.Encodable (escapeRawChar c) ↔ c.isSurrogate = false := by
  unfold escapeRawChar
  split
  · rename_i letter hletter
    have hplain : c.isSurrogate = false ∧ letter.isSurrogate = false := by
      have hmem := Entries.mem_of_get? hletter
      simp only [shortEscapes, List.mem_cons, Prod.mk.injEq, List.not_mem_nil, or_false] at hmem
      rcases hmem with ⟨rfl, rfl⟩ | ⟨rfl, rfl⟩ | ⟨rfl, rfl⟩ | ⟨rfl, rfl⟩ | ⟨rfl, rfl⟩ | ⟨rfl, rfl⟩ | ⟨rfl, rfl⟩ <;>
        exact ⟨rfl, rfl⟩
    exact iff_of_true (encodable_cons.mpr ⟨by decide, encodable_cons.mpr ⟨hplain.2, encodable_nil⟩⟩) hplain.1
  · split
    · rename_i hlow
      have hescape : Str.Encodable (unicodeEscape c.val) :=
        encodable_cons.mpr ⟨by decide, encodable_cons.mpr ⟨by decide, encodable_hexFixed 4 c.val⟩⟩
      exact iff_of_true hescape (isSurrogate_of_lt (by omega))
    · rw [encodable_cons, and_iff_left encodable_nil]

theorem encodable_encodeRawString {text : Str} : Str.Encodable (encodeRawString text) ↔ Str.Encodable text := by
  have hquote : CodePoint.quotation.isSurrogate = false := by decide
  have hflat : Str.Encodable (text.flatMap escapeRawChar) ↔ Str.Encodable text := by
    induction text with
    | nil => simp [Str.Encodable]
    | cons c rest ih =>
        rw [List.flatMap_cons, encodable_append, ih, encodable_escapeRawChar, encodable_cons]
  rw [encodeRawString, List.cons_append, encodable_cons, encodable_append, hflat, encodable_cons]
  exact ⟨fun h => h.2.1, fun h => ⟨hquote, h, hquote, encodable_nil⟩⟩

-- What `json.dumps(x, ensure_ascii=False)` writes can be sent when `x` can.
theorem encodable_dumpsRaw {j : Json} : Str.Encodable (dumpsRaw j) ↔ j.encodable = true := by
  have hcomma : Str.Encodable (", " : Str) := encodable_ofString ", "
  have hcolon : Str.Encodable (": " : Str) := encodable_ofString ": "
  induction j using Json.induct with
  | null => exact iff_of_true (encodable_ofString _) rfl
  | bool b => cases b <;> exact iff_of_true (encodable_ofString _) rfl
  | int n => exact iff_of_true (encodable_ofInt n) rfl
  | float x => exact iff_of_true (encodable_encodeFloat x) rfl
  | str text => exact encodable_encodeRawString.trans encodable_str.symm
  | arr items ih =>
      have hitems : Str.Encodable (dumpsRawItems items) ↔ ∀ item ∈ items, item.encodable = true := by
        induction items with
        | nil => simp [dumpsRawItems, Str.Encodable]
        | cons item rest ihrest =>
            have hitem : Str.Encodable (dumpsRaw item) ↔ item.encodable = true := ih item List.mem_cons_self
            have hrest := ihrest fun other hother => ih other (List.mem_cons_of_mem _ hother)
            cases rest with
            | nil => simpa [dumpsRawItems] using hitem
            | cons next rest =>
                rw [List.forall_mem_cons, ← hrest, ← hitem, dumpsRawItems, encodable_append, encodable_append]
                · simp [hcomma]
                · simp
      rw [encodable_arr, ← hitems, dumpsRaw, List.cons_append, encodable_cons, encodable_append]
      exact ⟨fun h => h.2.1, fun h => ⟨by decide, h, encodable_cons.mpr ⟨by decide, encodable_nil⟩⟩⟩
  | obj fields ih =>
      have hfields : Str.Encodable (dumpsRawFields fields) ↔
          ∀ field ∈ fields, Str.Encodable field.1 ∧ field.2.encodable = true := by
        induction fields with
        | nil => simp [dumpsRawFields, Str.Encodable]
        | cons field rest ihrest =>
            obtain ⟨key, value⟩ := field
            have hvalue : Str.Encodable (dumpsRaw value) ↔ value.encodable = true := ih (key, value) List.mem_cons_self
            have hrest := ihrest fun other hother => ih other (List.mem_cons_of_mem _ hother)
            have hfield : Str.Encodable (encodeRawString key ++ (": " : Str) ++ dumpsRaw value) ↔
                Str.Encodable key ∧ value.encodable = true := by
              rw [encodable_append, encodable_append, encodable_encodeRawString, hvalue, and_iff_left hcolon]
            cases rest with
            | nil => simpa [dumpsRawFields] using hfield
            | cons next rest =>
                rw [List.forall_mem_cons, ← hrest, ← hfield, dumpsRawFields, encodable_append, encodable_append]
                · rw [and_iff_left hcomma]
                · simp
      rw [encodable_obj, ← hfields, dumpsRaw, List.cons_append, encodable_cons, encodable_append]
      exact ⟨fun h => h.2.1, fun h => ⟨by decide, h, encodable_cons.mpr ⟨by decide, encodable_nil⟩⟩⟩

end Raw

end Json

end Benzene.Data
