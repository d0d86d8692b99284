import Benzene.Core.Mapping
import Benzene.Data.WellFormed

namespace Benzene.Core

open Benzene.Data

section Names

variable [UnicodeData]

-- The letters of a name, where the one after an underscore is in upper case.
def capitals (afterUnderscore : Bool) : Str → Str
  | [] => []
  | c :: rest =>
      if c = underscore then capitals true rest
      else (if afterUnderscore then Str.upper [c] else [c]) ++ capitals false rest

def letters (name : Str) : Str := name.filter fun c => c ≠ underscore

-- In lower case the capitals of a name are its letters.
def FoldsBack (name : Str) : Prop := Str.lower (letters (capitals false name)) = Str.lower (letters name)

theorem splitAt_underscore (name : Str) : ∃ part parts, splitAt underscore name = part :: parts ∧
    part ++ parts.flatMap (fun part => Str.upper (part.take 1) ++ part.drop 1) = capitals false name ∧
    Str.upper (part.take 1) ++ part.drop 1 ++
      parts.flatMap (fun part => Str.upper (part.take 1) ++ part.drop 1) = capitals true name := by
  induction name with
  | nil => exact ⟨[], [], rfl, rfl, rfl⟩
  | cons c rest ih =>
      obtain ⟨part, parts, hsplit, hhead, htail⟩ := ih
      by_cases hc : c = underscore
      · refine ⟨[], part :: parts, ?_, ?_, ?_⟩
        · rw [splitAt, if_pos hc, hsplit]
        · rw [capitals, if_pos hc, ← htail, List.flatMap_cons]
          rfl
        · rw [capitals, if_pos hc, ← htail, List.flatMap_cons]
          rfl
      · refine ⟨c :: part, parts, ?_, ?_, ?_⟩
        · rw [splitAt, if_neg hc, hsplit]
        · rw [capitals, if_neg hc, ← hhead]
          rfl
        · rw [capitals, if_neg hc, ← hhead, if_pos rfl, ← List.append_assoc]
          rfl

theorem toCamel_eq_capitals (name : Str) : toCamel name = capitals false name := by
  obtain ⟨part, parts, hsplit, hhead, -⟩ := splitAt_underscore name
  rw [toCamel, hsplit]
  exact hhead

theorem foldsBack_iff (name : Str) : FoldsBack name ↔ normalizeName (toCamel name) = normalizeName name := by
  rw [toCamel_eq_capitals]
  rfl

theorem encodable_capitals (hupper : ∀ text : Str, text.Encodable → (Str.upper text).Encodable) {name : Str}
    (h : name.Encodable) (afterUnderscore : Bool) : (capitals afterUnderscore name).Encodable := by
  induction name generalizing afterUnderscore with
  | nil => exact Str.encodable_nil
  | cons c rest ih =>
      obtain ⟨hc, hrest⟩ := Str.encodable_cons.mp h
      have hone : Str.Encodable [c] := Str.encodable_cons.mpr ⟨hc, Str.encodable_nil⟩
      rw [capitals]
      split
      · exact ih hrest true
      · intro d hd
        cases List.mem_append.mp hd with
        | inl hfirst =>
            cases afterUnderscore with
            | true => exact hupper [c] hone d hfirst
            | false => exact hone d hfirst
        | inr hmore => exact ih hrest false d hmore

end Names

section Ascii

theorem lowerAscii_upperAscii (c : CodePoint) : Str.lowerAscii (Str.upperAscii c) = Str.lowerAscii c := by
  unfold Str.upperAscii
  split
  · rename_i hlower
    unfold Str.lowerAscii
    rw [dif_pos (by dsimp only; omega), dif_neg (by omega)]
    ext
    dsimp only
    omega
  · rfl

theorem upperAscii_ne_underscore {c : CodePoint} (h : c ≠ underscore) : Str.upperAscii c ≠ underscore := by
  unfold Str.upperAscii
  split
  · intro heq
    have hval := congrArg Fin.val heq
    have hunderscore : underscore.val = 0x5F := rfl
    dsimp only at hval
    omega
  · exact h

theorem isAscii_upperAscii {c : CodePoint} (h : c.isAscii = true) : (Str.upperAscii c).isAscii = true := by
  unfold Str.upperAscii
  split
  · unfold CodePoint.isAscii
    rw [decide_eq_true_eq]
    dsimp only
    omega
  · exact h

variable [UnicodeData]

theorem capitals_ascii {name : Str} (h : ∀ c ∈ name, c.isAscii = true) (afterUnderscore : Bool) :
    (∀ c ∈ capitals afterUnderscore name, c.isAscii = true) ∧
      letters (capitals afterUnderscore name) = capitals afterUnderscore name ∧
      (capitals afterUnderscore name).map Str.lowerAscii = (letters name).map Str.lowerAscii := by
  induction name generalizing afterUnderscore with
  | nil => exact ⟨List.forall_mem_nil _, rfl, rfl⟩
  | cons c rest ih =>
      have hc := h c List.mem_cons_self
      have hrest := fun b => ih (fun d hd => h d (List.mem_cons_of_mem _ hd)) b
      by_cases hunderscore : c = underscore
      · have hletters : letters (c :: rest) = letters rest := List.filter_cons_of_neg (by simp [hunderscore])
        rw [capitals, if_pos hunderscore, hletters]
        exact hrest true
      · obtain ⟨hascii, hkept, hlower⟩ := hrest false
        have hletters : letters (c :: rest) = c :: letters rest := List.filter_cons_of_pos (by simp [hunderscore])
        have hupper : Str.upper [c] = [Str.upperAscii c] := by
          rw [Str.upper, if_pos (by simp [hc])]
          rfl
        rw [capitals, if_neg hunderscore, hletters]
        cases afterUnderscore with
        | true =>
            rw [if_pos rfl, hupper, List.singleton_append]
            refine ⟨?_, ?_, ?_⟩
            · exact List.forall_mem_cons.mpr ⟨isAscii_upperAscii hc, hascii⟩
            · exact (List.filter_cons_of_pos (by simp [upperAscii_ne_underscore hunderscore])).trans
                (congrArg _ hkept)
            · rw [List.map_cons, List.map_cons, lowerAscii_upperAscii, hlower]
        | false =>
            rw [if_neg Bool.false_ne_true, List.singleton_append]
            refine ⟨?_, ?_, ?_⟩
            · exact List.forall_mem_cons.mpr ⟨hc, hascii⟩
            · exact (List.filter_cons_of_pos (by simp [hunderscore])).trans (congrArg _ hkept)
            · rw [List.map_cons, List.map_cons, hlower]

-- So do all names in ASCII.
theorem foldsBack_ascii {name : Str} (h : ∀ c ∈ name, c.isAscii = true) : FoldsBack name := by
  obtain ⟨hascii, hkept, hlower⟩ := capitals_ascii h false
  have hletters : ∀ c ∈ letters name, c.isAscii = true := fun c hc => h c (List.mem_filter.mp hc).1
  unfold FoldsBack Str.lower
  rw [hkept, if_pos (List.all_eq_true.mpr hascii), if_pos (List.all_eq_true.mpr hletters), hlower]

end Ascii

section Types

-- A dataclass whose fields take any JSON value.
structure FlatDataclass where
  name : Str
  fields : List Str
  default : Str → Option Json
  distinct : fields.Nodup
  encodable : ∀ field ∈ fields, field.Encodable

namespace FlatDataclass

-- An instance has a value for each field, in their order.
def IsInstance (type : FlatDataclass) (values : Fields) : Prop :=
  Entries.keys values = type.fields ∧ ∀ field ∈ values, field.2.WellFormed

-- What the class does with keyword arguments.
def construct (type : FlatDataclass) (kwargs : Fields) : Except PyError Fields :=
  if kwargs.all fun argument => argument.1 ∈ type.fields then
    type.fields.mapM fun name =>
      match (Entries.get? name kwargs).or (type.default name) with
      | some value => .ok (name, value)
      | none => .error ⟨.typeError, []⟩
  else .error ⟨.typeError, []⟩

def requestType (type : FlatDataclass) : RequestType Fields where
  name := type.name
  isInstance _ := false
  fieldNames := some type.fields
  construct := type.construct
  convert _ := .error ⟨.typeError, []⟩

def payload (values : Fields) : Value := .dataclass (Entries.mapValues .ofJson values)

variable [UnicodeData]

-- The instance is written, read and mapped back to itself.
def Survives (type : FlatDataclass) (values : Fields) : Prop :=
  ∃ text body, encodeBody (payload values) = .ok text ∧ Json.loads text = some body ∧
    toRequest (some type.requestType) body = .ok (.typed values)

end FlatDataclass

end Types

section Writing

theorem ofFields_eq (fields : Fields) :
    Value.ofFields fields = (Entries.mapValues Value.ofJson fields).map fun entry => (.str entry.1, entry.2) := by
  induction fields with
  | nil => rfl
  | cons field rest ih =>
      obtain ⟨name, value⟩ := field
      rw [Value.ofFields, ih]
      rfl

variable [UnicodeData]

-- The members that are written.
def camelMembers (values : Fields) : Fields := values.map fun field => (toCamel field.1, field.2)

theorem toJsonableFields_ofJson (values : Fields) :
    toJsonableFields (Entries.mapValues .ofJson values) = .ok (Entries.mapValues .ofJson (camelMembers values)) := by
  induction values with
  | nil => rfl
  | cons field rest ih =>
      obtain ⟨name, value⟩ := field
      show toJsonableFields ((name, Value.ofJson value) :: Entries.mapValues .ofJson rest) = _
      rw [toJsonableFields, toJsonable_ofJson, ih]
      rfl

theorem toJsonable_payload (values : Fields) :
    toJsonable (FlatDataclass.payload values) = .ok (.ofJson (.obj (Entries.update [] (camelMembers values)))) := by
  have hupdate := Entries.update_mapValues Value.ofJson [] (camelMembers values)
  rw [FlatDataclass.payload, toJsonable, toJsonableFields_ofJson, Value.ofJson, ofFields_eq, ← hupdate]
  rfl

theorem encodeBody_payload (values : Fields) :
    encodeBody (FlatDataclass.payload values) =
      .ok (Json.dumpsWith .spaced (.obj (Entries.update [] (camelMembers values)))) := by
  show dumpPayload (FlatDataclass.payload values) = _
  unfold dumpPayload
  rw [toJsonable_payload]
  show (asJson (.ofJson (.obj (Entries.update [] (camelMembers values)))) >>= fun written => _) = _
  rw [asJson_ofJson]
  rfl

variable (hupper : ∀ text : Str, text.Encodable → (Str.upper text).Encodable)
include hupper

theorem loads_payload {type : FlatDataclass} {values : Fields} (h : type.IsInstance values) :
    Json.loads (Json.dumpsWith .spaced (.obj (Entries.update [] (camelMembers values)))) =
      some (.obj (Entries.update [] (camelMembers values))) := by
  rw [Json.loads_dumpsWith]
  refine congrArg some (Json.reread_of_wellFormed ?_)
  refine Json.wellFormedObject_update Json.wellFormedObject_nil ?_
  intro member hmember
  obtain ⟨field, hfield, rfl⟩ := List.mem_map.mp hmember
  have hname : field.1 ∈ type.fields := h.1 ▸ List.mem_map_of_mem hfield
  refine ⟨?_, h.2 field hfield⟩
  rw [toCamel_eq_capitals]
  exact (encodable_capitals hupper (type.encodable _ hname) false).joined

end Writing

section Reading

variable [UnicodeData]

-- The members by their folded names, as the mapping reads them.
def foldedMembers (data : Fields) : Fields :=
  Entries.update [] (data.map fun entry => (normalizeName entry.1, entry.2))

theorem get?_keywordArguments {fieldNames : List Str} {data : Fields} {name : Str} (h : name ∈ fieldNames) :
    Entries.get? name (keywordArguments fieldNames data) =
      Entries.get? (normalizeName name) (foldedMembers data) := by
  unfold keywordArguments foldedMembers
  dsimp only
  generalize Entries.update [] (data.map fun entry => (normalizeName entry.1, entry.2)) = byNorm
  induction fieldNames with
  | nil => cases h
  | cons first rest ih =>
      rw [List.filterMap_cons]
      by_cases hfirst : first = name
      · subst hfirst
        cases hget : Entries.get? (normalizeName first) byNorm with
        | some value => exact if_pos rfl
        | none =>
            rw [Option.map_none]
            dsimp only
            rw [Entries.get?_eq_none_iff]
            intro hkey
            obtain ⟨entry, hentry, hname⟩ := List.mem_map.mp hkey
            obtain ⟨other, -, hother⟩ := List.mem_filterMap.mp hentry
            obtain ⟨value, hvalue, rfl⟩ := Option.map_eq_some_iff.mp hother
            subst hname
            rw [hget] at hvalue
            cases hvalue
      · have hrest : name ∈ rest := (List.mem_cons.mp h).resolve_left fun heq => hfirst heq.symm
        cases hget : Entries.get? (normalizeName first) byNorm with
        | some value => exact (if_neg hfirst).trans (ih hrest)
        | none => exact ih hrest

theorem mem_keywordArguments {fieldNames : List Str} {data : Fields} {argument : Str × Json}
    (h : argument ∈ keywordArguments fieldNames data) : argument.1 ∈ fieldNames := by
  obtain ⟨name, hname, hargument⟩ := List.mem_filterMap.mp h
  obtain ⟨value, -, rfl⟩ := Option.map_eq_some_iff.mp hargument
  exact hname

omit [UnicodeData] in
theorem FlatDataclass.construct_eq_ok {type : FlatDataclass} {kwargs values : Fields}
    (hkwargs : ∀ argument ∈ kwargs, argument.1 ∈ type.fields) (hkeys : Entries.keys values = type.fields) :
    type.construct kwargs = .ok values ↔
      ∀ field ∈ values, (Entries.get? field.1 kwargs).or (type.default field.1) = some field.2 := by
  have hall : (kwargs.all fun argument => argument.1 ∈ type.fields) = true := by
    rw [List.all_eq_true]
    intro argument hargument
    exact decide_eq_true (hkwargs argument hargument)
  unfold construct
  rw [if_pos hall, Except.mapM_eq_ok, ← hkeys, Entries.keys, List.forall₂_map_left_iff, List.forall₂_same]
  refine forall₂_congr fun field hfield => ?_
  cases (Entries.get? field.1 kwargs).or (type.default field.1) with
  | none =>
      constructor
      · intro h
        cases h
      · intro h
        cases h
  | some value =>
      constructor
      · intro h
        exact congrArg some (congrArg Prod.snd (Except.ok.inj h))
      · intro h
        rw [Option.some.inj h]

omit [UnicodeData] in
theorem keys_mapKeys (f : Str → Str) (values : Fields) :
    Entries.keys (values.map fun field => (f field.1, field.2)) = (Entries.keys values).map f := by
  rw [Entries.keys, Entries.keys, List.map_map, List.map_map]
  rfl

-- The members of an instance whose names stay apart are its fields.
theorem foldedMembers_of_apart {type : FlatDataclass} {values : Fields} (h : type.IsInstance values)
    (hfolds : ∀ name ∈ type.fields, FoldsBack name) (hapart : (type.fields.map normalizeName).Nodup) :
    foldedMembers (Entries.update [] (camelMembers values)) =
      values.map fun field => (normalizeName field.1, field.2) := by
  have hsame : (camelMembers values).map (fun entry => (normalizeName entry.1, entry.2)) =
      values.map fun field => (normalizeName field.1, field.2) := by
    unfold camelMembers
    rw [List.map_map]
    refine List.map_congr_left fun field hfield => ?_
    have hname : field.1 ∈ type.fields := h.1 ▸ List.mem_map_of_mem hfield
    exact Prod.ext ((foldsBack_iff _).mp (hfolds _ hname)) rfl
  have hkeys : Entries.keys (values.map fun field => (normalizeName field.1, field.2)) =
      type.fields.map normalizeName := by
    rw [keys_mapKeys, h.1]
  have hcamel : (Entries.keys (camelMembers values)).Nodup := by
    have hnormalized := keys_mapKeys normalizeName (camelMembers values)
    rw [hsame, hkeys] at hnormalized
    rw [hnormalized] at hapart
    exact List.Nodup.of_map _ hapart
  unfold foldedMembers
  rw [Entries.update_nil_of_nodup hcamel, hsame, Entries.update_nil_of_nodup (by rw [hkeys]; exact hapart)]

end Reading

section Survival

variable [UnicodeData] (hupper : ∀ text : Str, text.Encodable → (Str.upper text).Encodable)
include hupper

-- An instance survives when each field is read from a member of its own value.
theorem survives_iff {type : FlatDataclass} {values : Fields} (h : type.IsInstance values) :
    type.Survives values ↔ ∀ field ∈ values,
      (Entries.get? (normalizeName field.1) (foldedMembers (Entries.update [] (camelMembers values)))).or
        (type.default field.1) = some field.2 := by
  have hrequest : toRequest (some type.requestType) (.obj (Entries.update [] (camelMembers values))) =
      (type.construct (keywordArguments type.fields (Entries.update [] (camelMembers values)))).map .typed := rfl
  have hread : toRequest (some type.requestType) (.obj (Entries.update [] (camelMembers values))) =
      .ok (.typed values) ↔
        type.construct (keywordArguments type.fields (Entries.update [] (camelMembers values))) = .ok values := by
    rw [hrequest]
    cases type.construct (keywordArguments type.fields (Entries.update [] (camelMembers values))) with
    | error error =>
        constructor
        · intro h
          cases h
        · intro h
          cases h
    | ok read =>
        constructor
        · intro h
          rw [Request.typed.inj (Except.ok.inj h)]
        · intro h
          rw [Except.ok.inj h]
          rfl
  have hconstruct : type.Survives values ↔
      type.construct (keywordArguments type.fields (Entries.update [] (camelMembers values))) = .ok values := by
    rw [← hread]
    constructor
    · rintro ⟨text, body, htext, hbody, hrequest⟩
      rw [encodeBody_payload] at htext
      cases htext
      rw [loads_payload hupper h] at hbody
      cases hbody
      exact hrequest
    · intro hrequest
      exact ⟨_, _, encodeBody_payload values, loads_payload hupper h, hrequest⟩
  rw [hconstruct, FlatDataclass.construct_eq_ok (fun _ => mem_keywordArguments) h.1]
  refine forall₂_congr fun field hfield => ?_
  rw [get?_keywordArguments (h.1 ▸ List.mem_map_of_mem hfield)]

-- The instance that has `mark` in one field and null in the others.
def marked (type : FlatDataclass) (name : Str) (mark : Bool) : Fields :=
  type.fields.map fun other => (other, if other = name then .bool mark else .null)

omit [UnicodeData] hupper in
theorem marked_isInstance (type : FlatDataclass) (name : Str) (mark : Bool) :
    type.IsInstance (marked type name mark) := by
  constructor
  · unfold marked Entries.keys
    rw [List.map_map]
    exact List.map_id' _
  · intro field hfield
    obtain ⟨other, -, rfl⟩ := List.mem_map.mp hfield
    dsimp only
    split <;> exact trivial

-- A mark that is read for a field comes from the member of that field.
theorem marked_read {type : FlatDataclass} {name : Str} {mark : Bool} (hname : name ∈ type.fields)
    (hdefault : type.default name ≠ some (.bool mark)) (h : type.Survives (marked type name mark)) :
    Entries.get? (normalizeName name) (foldedMembers (Entries.update [] (camelMembers (marked type name mark)))) =
        some (.bool mark) ∧ FoldsBack name := by
  have hfield : (name, Json.bool mark) ∈ marked type name mark :=
    List.mem_map.mpr ⟨name, hname, by rw [if_pos rfl]⟩
  have hread := (survives_iff hupper (marked_isInstance type name mark)).mp h _ hfield
  have hget : Entries.get? (normalizeName name)
      (foldedMembers (Entries.update [] (camelMembers (marked type name mark)))) = some (.bool mark) := by
    cases hget : Entries.get? (normalizeName name)
        (foldedMembers (Entries.update [] (camelMembers (marked type name mark)))) with
    | some value =>
        rw [hget] at hread
        exact hread
    | none =>
        rw [hget] at hread
        exact absurd hread hdefault
  refine ⟨hget, ?_⟩
  have hmember := (Entries.mem_update (Entries.mem_of_get? hget)).resolve_left List.not_mem_nil
  obtain ⟨written, hwritten, hsame⟩ := List.mem_map.mp hmember
  have hcamel := (Entries.mem_update hwritten).resolve_left List.not_mem_nil
  obtain ⟨field, hmarked, rfl⟩ := List.mem_map.mp hcamel
  obtain ⟨other, -, rfl⟩ := List.mem_map.mp hmarked
  obtain ⟨hnormalized, hvalue⟩ := Prod.mk.inj hsame
  by_cases hother : other = name
  · subst hother
    exact (foldsBack_iff other).mpr hnormalized
  · dsimp only at hvalue
    rw [if_neg hother] at hvalue
    cases hvalue

-- Every instance of a flat dataclass survives the wire exactly when each of its
-- names folds back from its capitals and no two of them have the same letters in
-- lower case.
theorem flatDataclass_survives_iff (type : FlatDataclass) :
    (∀ values, type.IsInstance values → type.Survives values) ↔
      (∀ name ∈ type.fields, FoldsBack name) ∧
        (type.fields.map fun name => Str.lower (letters name)).Nodup := by
  constructor
  · intro h
    have hmark (name : Str) (hname : name ∈ type.fields) : ∃ mark, FoldsBack name ∧
        Entries.get? (normalizeName name)
          (foldedMembers (Entries.update [] (camelMembers (marked type name mark)))) = some (.bool mark) := by
      obtain ⟨mark, hdefault⟩ : ∃ mark, type.default name ≠ some (.bool mark) := by
        by_cases htrue : type.default name = some (.bool true)
        · exact ⟨false, by rw [htrue]; decide⟩
        · exact ⟨true, htrue⟩
      obtain ⟨hget, hfolds⟩ :=
        marked_read hupper hname hdefault (h _ (marked_isInstance type name mark))
      exact ⟨mark, hfolds, hget⟩
    refine ⟨fun name hname => (hmark name hname).choose_spec.1, ?_⟩
    refine List.Nodup.map_on ?_ type.distinct
    intro name hname other hother heq
    by_contra hne
    obtain ⟨mark, -, hget⟩ := hmark name hname
    have hnull : (other, Json.null) ∈ marked type name mark :=
      List.mem_map.mpr ⟨other, hother, by rw [if_neg fun hsame => hne hsame.symm]⟩
    have hread := (survives_iff hupper (marked_isInstance type name mark)).mp
      (h _ (marked_isInstance type name mark)) _ hnull
    have hsame : normalizeName other = normalizeName name := heq.symm
    rw [hsame, hget] at hread
    cases hread
  · rintro ⟨hfolds, hapart⟩ values hvalues
    rw [survives_iff hupper hvalues, foldedMembers_of_apart hvalues hfolds hapart]
    intro field hfield
    have hget : Entries.get? (normalizeName field.1)
        (values.map fun field => (normalizeName field.1, field.2)) = some field.2 := by
      refine Entries.get?_of_mem ?_ (List.mem_map_of_mem hfield)
      rw [keys_mapKeys, hvalues.1]
      exact hapart
    rw [hget]
    rfl

end Survival

section Dotless

-- The database around the dotless `ı`, whose upper case is `I`.
@[reducible] def UnicodeData.dotless : UnicodeData where
  printable _ := true
  decimal _ := none
  space _ := false
  upper text := text.map fun c => if c.val = 0x131 then CodePoint.ofChar 'I' else c
  lower text := text.map Str.lowerAscii

theorem isSurrogate_upperAscii {c : CodePoint} (h : c.isSurrogate = false) :
    (Str.upperAscii c).isSurrogate = false := by
  unfold Str.upperAscii
  split
  · exact Str.isSurrogate_of_lt (by dsimp only; omega)
  · exact h

theorem encodable_upper_dotless :
    letI := UnicodeData.dotless
    ∀ text : Str, text.Encodable → (Str.upper text).Encodable := by
  let _ := UnicodeData.dotless
  intro text h c hc
  unfold Str.upper at hc
  split at hc
  · obtain ⟨d, hd, rfl⟩ := List.mem_map.mp hc
    exact isSurrogate_upperAscii (h d hd)
  · obtain ⟨d, hd, rfl⟩ := List.mem_map.mp hc
    split
    · rfl
    · exact h d hd

-- A reading of the last temperature.
def temperature : FlatDataclass where
  name := "Temperature"
  fields := [("son_ısı" : Str)]
  default _ := none
  distinct := List.nodup_singleton _
  encodable := by decide

theorem temperature_survives_iff :
    letI := UnicodeData.dotless
    (∀ values, temperature.IsInstance values → temperature.Survives values) ↔
      (∀ name ∈ temperature.fields, FoldsBack name) ∧
        (temperature.fields.map fun name => Str.lower (letters name)).Nodup :=
  letI := UnicodeData.dotless
  flatDataclass_survives_iff encodable_upper_dotless temperature

-- Its text is not read back: the field's capital is a dotted `i` in lower case.
theorem temperature_lost :
    letI := UnicodeData.dotless
    temperature.IsInstance [("son_ısı", .int 21)] ∧ ¬ temperature.Survives [("son_ısı", .int 21)] := by
  let _ := UnicodeData.dotless
  have hinstance : temperature.IsInstance [("son_ısı", .int 21)] := by
    refine ⟨rfl, ?_⟩
    intro field hfield
    rw [List.mem_singleton.mp hfield]
    trivial
  refine ⟨hinstance, ?_⟩
  rw [survives_iff encodable_upper_dotless hinstance]
  decide +kernel

end Dotless

end Benzene.Core
