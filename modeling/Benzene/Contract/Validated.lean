import Benzene.Contract.Accepted
import Benzene.Contract.PayloadSchema

namespace Benzene.Contract.Payload

open Benzene.Data Benzene.Data.JsonSchema
open Benzene.Core (Value toJsonable toJsonableItems toCamel)
open Benzene.Contract.Derivation
open Benzene.Mesh (Member)

section Forms

variable {schema item : Fields} {name : Str} {value : Json}

theorem validates_typed (h : OfType name value) : Validates (typed name) value :=
  .keywords (fun _ htype => by cases htype; exact ⟨name, .one name, h⟩) (fun _ h => nomatch h) (fun _ _ h => nomatch h)
    (fun _ _ _ _ h => nomatch h) (fun _ _ h => nomatch h) (fun _ _ _ h => nomatch h)

theorem validates_formatted (format : Str) (h : OfType name value) : Validates (formatted name format) value :=
  .keywords (fun _ htype => by cases htype; exact ⟨name, .one name, h⟩) (fun _ h => nomatch h) (fun _ _ h => nomatch h)
    (fun _ _ _ _ h => nomatch h) (fun _ _ h => nomatch h) (fun _ _ _ h => nomatch h)

theorem validates_array {elements : List Json} (h : ∀ element ∈ elements, Validates item element) :
    Validates (arraySchema item) (.arr elements) :=
  .keywords (fun _ htype => by cases htype; exact ⟨_, .one _, .array elements⟩) (fun _ h => nomatch h)
    (fun _ _ hitem hvalue => by cases hitem; cases hvalue; exact h) (fun _ _ _ _ h => nomatch h)
    (fun _ _ h => nomatch h) (fun _ _ _ h => nomatch h)

theorem validates_map {members : Fields} (h : ∀ member ∈ members, Validates item member.2) :
    Validates (mapSchema item) (.obj members) :=
  .keywords (fun _ htype => by cases htype; exact ⟨_, .one _, .object members⟩) (fun _ h => nomatch h)
    (fun _ _ h => nomatch h) (fun _ _ _ _ h => nomatch h)
    (fun _ _ hitem hvalue member hmember _ => by cases hitem; cases hvalue; exact h member hmember)
    (fun _ _ _ h => nomatch h)

theorem validates_enum {values : List Scalar} (h : OfType name value) (hmem : value ∈ values.map Scalar.toJson) :
    Validates (enumSchema name values) value :=
  .keywords (fun _ htype => by cases htype; exact ⟨name, .one name, h⟩)
    (fun _ henum => by cases henum; exact List.mem_map_of_mem hmem)
    (fun _ _ h => nomatch h) (fun _ _ _ _ h => nomatch h) (fun _ _ h => nomatch h) (fun _ _ _ h => nomatch h)

theorem validates_record {properties : Fields} {required : List Str} {members : Fields}
    (hproperties : ∀ name property, Entries.get? name (Entries.update [] properties) = some (.obj property) →
      ∀ member ∈ members, member.1 = name → Validates property member.2)
    (hrequired : ∀ name ∈ required, name ∈ Entries.keys members) :
    Validates (recordSchema properties required) (.obj members) := by
  unfold recordSchema Json.fieldIf
  by_cases hempty : required = []
  · subst hempty
    exact .keywords (fun _ htype => by cases htype; exact ⟨_, .one _, .object members⟩) (fun _ h => nomatch h)
      (fun _ _ h => nomatch h)
      (fun _ _ name property hprops hvalue hget => by cases hprops; cases hvalue; exact hproperties name property hget)
      (fun _ _ h => nomatch h) (fun _ _ _ h => nomatch h)
  · rw [if_pos (by simpa using hempty)]
    refine .keywords (fun _ htype => by cases htype; exact ⟨_, .one _, .object members⟩) (fun _ h => nomatch h)
      (fun _ _ h => nomatch h)
      (fun _ _ name property hprops hvalue hget => by cases hprops; cases hvalue; exact hproperties name property hget)
      (fun _ _ h => nomatch h) ?_
    intro names written name hnames hvalue hmem
    cases hnames
    cases hvalue
    obtain ⟨other, hother, heq⟩ := List.mem_map.mp hmem
    cases heq
    exact hrequired _ hother

theorem names_typeNames {existing : Json} (h : Names existing name) : .str name ∈ typeNames existing := by
  cases h with
  | one => exact List.mem_singleton_self _
  | among h => exact h

theorem mem_withItem_self (items : List Json) (item : Json) : item ∈ withItem items item := by
  unfold withItem
  split
  · assumption
  · exact List.mem_append_right _ (List.mem_singleton_self _)

theorem mem_withItem {items : List Json} (item : Json) {other : Json} (h : other ∈ items) :
    other ∈ withItem items item := by
  unfold withItem
  split
  · exact h
  · exact List.mem_append_left _ h

theorem get?_type_asNullable {existing : Json} (htype : Entries.get? ("type" : Str) schema = some existing) :
    Entries.get? ("type" : Str) (asNullable schema) = some (.arr (withItem (typeNames existing) (.str "null"))) := by
  unfold asNullable
  rw [htype]
  dsimp only
  split
  · rw [Entries.get?_set, if_neg (by decide), Entries.get?_set_self]
  · exact Entries.get?_set_self _ _ _

theorem get?_enum_asNullable {existing : Json} (htype : Entries.get? ("type" : Str) schema = some existing)
    {values : List Json} (h : Entries.get? ("enum" : Str) (asNullable schema) = some (.arr values)) :
    ∃ listed, Entries.get? ("enum" : Str) schema = some (.arr listed) ∧ values = withItem listed .null := by
  unfold asNullable at h
  rw [htype] at h
  dsimp only at h
  split at h
  · rename_i listed hlisted
    rw [Entries.get?_set_self] at h
    cases h
    exact ⟨listed, hlisted, rfl⟩
  · rename_i hlisted
    rw [Entries.get?_set, if_neg (by decide)] at h
    exact absurd h (hlisted values)

theorem get?_asNullable {key : Str} (hkey : key ≠ "type") (henum : key ≠ "enum") :
    Entries.get? key (asNullable schema) = Entries.get? key schema := by
  unfold asNullable
  split
  · rfl
  · dsimp only
    split
    · rw [Entries.get?_set, if_neg henum.symm, Entries.get?_set, if_neg hkey.symm]
    · rw [Entries.get?_set, if_neg hkey.symm]

theorem validates_asNullable_null {existing : Json} (htype : Entries.get? ("type" : Str) schema = some existing) :
    Validates (asNullable schema) .null := by
  refine .keywords ?_ ?_ (fun _ _ _ h => nomatch h) (fun _ _ _ _ _ h => nomatch h) (fun _ _ _ h => nomatch h)
    (fun _ _ _ _ h => nomatch h)
  · intro types htypes
    rw [get?_type_asNullable htype] at htypes
    cases htypes
    exact ⟨"null", .among (mem_withItem_self _ _), .null⟩
  · intro values hvalues
    obtain ⟨listed, -, rfl⟩ := get?_enum_asNullable htype hvalues
    exact List.mem_map_of_mem (mem_withItem_self listed .null)

theorem asNullable_open (h : Entries.get? ("type" : Str) schema = none) : asNullable schema = schema := by
  unfold asNullable
  rw [h]

-- A schema that may be null admits what it admitted before.
theorem validates_asNullable (h : Validates schema value) : Validates (asNullable schema) value := by
  cases htype : Entries.get? ("type" : Str) schema with
  | none =>
      rw [asNullable_open htype]
      exact h
  | some existing =>
      cases h with
      | keywords hof henum hitems hproperties hadditional hrequired =>
          rw [← get?_asNullable (by decide) (by decide)] at hitems hproperties hadditional hrequired
          refine .keywords ?_ ?_ hitems hproperties ?_ hrequired
          · intro types htypes
            rw [get?_type_asNullable htype] at htypes
            cases htypes
            obtain ⟨name, hname, hvalue⟩ := hof existing htype
            exact ⟨name, .among (mem_withItem _ (names_typeNames hname)), hvalue⟩
          · intro values hvalues
            obtain ⟨listed, hlisted, rfl⟩ := get?_enum_asNullable htype hvalues
            obtain ⟨other, hother, hsame⟩ := List.mem_map.mp (henum listed hlisted)
            rw [← hsame]
            exact List.mem_map_of_mem (mem_withItem _ hother)
          · intro additional members hget hvalue member hmember hnamed
            apply hadditional additional members hget hvalue member hmember
            intro properties hproperties
            apply hnamed
            rw [get?_asNullable (by decide) (by decide)]
            exact hproperties

end Forms

section Leaves

variable [UnicodeData] {value : Value} {json : Json}

theorem validates_primitive {primitive : Primitive} (h : OfPrimitive primitive value) (hwrites : Writes value json) :
    Validates (primitiveSchema primitive) json := by
  cases h with
  | bool b =>
      rw [@writes_scalar _ (.bool b) _ hwrites]
      exact validates_typed (.boolean b)
  | int n =>
      rw [@writes_scalar _ (.int n) _ hwrites]
      exact validates_typed (.integer n)
  | float x =>
      rw [writes_float hwrites]
      exact validates_typed (.number x)
  | whole n =>
      rw [@writes_scalar _ (.int n) _ hwrites]
      exact validates_typed (.whole n)
  | str text =>
      rw [@writes_scalar _ (.str text) _ hwrites]
      exact validates_typed (.string text)
  | bytes data =>
      rw [writes_bytes hwrites]
      exact validates_typed (.string _)
  | datetime | date | uuid =>
      rw [writes_text hwrites]
      exact validates_formatted _ (.string _)
  | time =>
      rw [writes_text hwrites]
      exact validates_typed (.string _)
  | timedelta =>
      rw [writes_timedelta hwrites]
      exact validates_formatted _ (.string _)
  | decimal x => exact validates_typed (ofType_decimal hwrites)

theorem validates_literal {values : List LiteralValue} {literal : LiteralValue} (hmem : literal ∈ values)
    (h : OfLiteral literal value) (hwrites : Writes value json) : Validates (literalUnion values) json := by
  have hnone : decide (LiteralValue.none ∈ values.filter fun value => value ≠ .none) = false := by simp
  unfold literalUnion
  dsimp only
  rcases literalSchema_cases (values.filter fun value => value ≠ .none) with hopen | ⟨name, scalars, hschema, hscalars⟩
  · rw [hopen, asNullable_open rfl, ite_self]
    exact validates_open _
  · rw [hnone] at hschema
    rw [hschema, literalOf, show Json.fieldIf false "nullable" (.bool true) = [] from rfl, List.append_nil]
    by_cases heq : literal = .none
    · subst heq
      cases h
      rw [if_pos hmem, writes_none hwrites]
      exact validates_asNullable_null rfl
    · have hlisted : ∀ scalar, writtenValue literal = .value scalar →
          Validates
            (if LiteralValue.none ∈ values then asNullable (enumSchema name scalars) else enumSchema name scalars)
            scalar.toJson := by
        intro scalar hwritten
        obtain ⟨other, hother, hsame, htype⟩ := hscalars literal (List.mem_filter.mpr ⟨hmem, decide_eq_true heq⟩) heq
        rw [hwritten] at hsame
        cases hsame
        have hvalid := validates_enum (ofType_scalar htype) (List.mem_map_of_mem hother)
        split
        · exact validates_asNullable hvalid
        · exact hvalid
      have hfiltered : literal ∈ values.filter fun value => value ≠ .none :=
        List.mem_filter.mpr ⟨hmem, decide_eq_true heq⟩
      cases h with
      | none => exact absurd rfl heq
      | value scalar =>
          rw [writes_scalar hwrites]
          exact hlisted scalar rfl
      | member scalar =>
          rw [writes_scalar hwrites]
          exact hlisted scalar rfl
      | plainMember =>
          obtain ⟨_, -, hwritten, -⟩ := hscalars _ hfiltered heq
          cases hwritten
      | bytes =>
          obtain ⟨_, -, hwritten, -⟩ := hscalars _ hfiltered heq
          cases hwritten

end Leaves

section Shapes

-- The open schema, or one that names a type.
def Shaped (schema : Fields) : Prop := schema = [] ∨ ∃ existing, Entries.get? ("type" : Str) schema = some existing

theorem shaped_asNullable {schema : Fields} (h : Shaped schema) : Shaped (asNullable schema) := by
  rcases h with rfl | ⟨existing, htype⟩
  · exact .inl rfl
  · exact .inr ⟨_, get?_type_asNullable htype⟩

theorem shaped_literalUnion (values : List LiteralValue) : Shaped (literalUnion values) := by
  have hplain : Shaped (literalSchema (values.filter fun value => value ≠ .none)) := by
    rcases literalSchema_cases (values.filter fun value => value ≠ .none) with hopen | ⟨name, scalars, hschema, -⟩
    · exact .inl hopen
    · rw [hschema]
      exact .inr ⟨_, rfl⟩
  unfold literalUnion
  dsimp only
  split
  · exact shaped_asNullable hplain
  · exact hplain

variable {enter : Bool → ClassId → Fields} {inModel : Bool}

mutual

theorem shaped_schema (henter : ∀ inModel id, Shaped (enter inModel id)) (pyType : PyType) :
    Shaped (schema enter inModel pyType) := by
  rcases pyType with atom | ⟨base, metadata⟩ | ⟨origin, args⟩
  · cases atom with
    | literal values => exact shaped_literalUnion values
    | primitive primitive => cases primitive <;> exact .inr ⟨_, rfl⟩
    | path => exact .inr ⟨_, rfl⟩
    | cls id => exact henter inModel id
    | none | any | ellipsis | typeVar | other => exact .inl rfl
  · rw [schema]
    split
    · exact .inl rfl
    · exact shaped_schema henter base
  · cases origin with
    | union name =>
        rw [schema_union]
        split
        · rename_i arg hfilter
          have harg : arg ∈ args := by
            apply List.mem_of_mem_filter
            rw [hfilter]
            exact List.mem_singleton_self arg
          have hinner : Shaped (schema enter inModel arg) := by
            apply shaped_argSchemas henter args
            rw [argSchemas_eq]
            exact List.mem_map_of_mem harg
          split
          · exact hinner
          · exact shaped_asNullable hinner
        · exact .inl rfl
    | list | tuple | set | frozenset => exact .inr ⟨_, rfl⟩
    | dict =>
        rw [schema]
        split <;> exact .inr ⟨_, rfl⟩
    | cls => exact .inl rfl

theorem shaped_argSchemas (henter : ∀ inModel id, Shaped (enter inModel id)) (args : List PyType) :
    ∀ inner ∈ argSchemas enter inModel args, Shaped inner := by
  cases args with
  | nil => exact fun _ hmem => nomatch hmem
  | cons arg rest =>
      intro inner hmem
      rcases List.mem_cons.mp hmem with rfl | hmem
      · exact shaped_schema henter arg
      · exact shaped_argSchemas henter rest inner hmem

end

end Shapes

section Classes

variable [UnicodeData] {program : Program} {asWritten : ClassId → Str → PyType} {declarations : Declarations}
  {seen : List ClassId} {inModel : Bool} {id : ClassId}

theorem classSchema_strEnum {values : List Str} (hkind : (program.classAt id).kind = .strEnum values) :
    classSchema program declarations seen inModel id = enumSchema "string" (values.map .str) := by
  rw [classSchema]
  split <;> simp_all

theorem classSchema_intEnum {values : List Int} (hkind : (program.classAt id).kind = .intEnum values) :
    classSchema program declarations seen inModel id = enumSchema "integer" (values.map .int) := by
  rw [classSchema]
  split <;> simp_all

theorem classSchema_plain (hkind : (program.classAt id).kind = .plain) :
    classSchema program declarations seen inModel id = [] := by
  rw [classSchema]
  split <;> simp_all

theorem classSchema_dataclass {parameters : List Str} {hints : List (Str × PyType)} {fields : List Str}
    (hkind : (program.classAt id).kind = .dataclass parameters hints fields) :
    classSchema program declarations seen inModel id =
      if inModel = true ∨ id ∈ seen then []
      else
        recordSchema
          (fields.map fun name => (toCamel name, Json.obj (schema (classSchema program declarations (id :: seen)) false
            ((Entries.get? name hints).getD (declarations.asWritten id name)))))
          ((fields.filter fun name => declarations.required id name).map toCamel) := by
  rw [classSchema]
  split
  · simp_all
  · simp_all
  · simp_all
  · simp_all
  · simp_all
  · rename_i hkind'
    rw [hkind] at hkind'
    cases hkind'
    rfl

theorem shaped_classSchema (hstandard : Standard program) (inModel : Bool) (id : ClassId) :
    Shaped (classSchema program declarations seen inModel id) := by
  cases hkind : (program.classAt id).kind with
  | strEnum values =>
      rw [classSchema_strEnum hkind]
      exact .inr ⟨_, rfl⟩
  | intEnum values =>
      rw [classSchema_intEnum hkind]
      exact .inr ⟨_, rfl⟩
  | plain => exact .inl (classSchema_plain hkind)
  | dataclass parameters hints fields =>
      rw [classSchema_dataclass hkind]
      split
      · exact .inl rfl
      · exact .inr ⟨_, rfl⟩
  | model fields computed serialized => exact absurd hkind ((hstandard.kind id).1 _ _ _)
  | rootModel root serialized => exact absurd hkind ((hstandard.kind id).2 _ _)

-- What is entered on the way to the schema of a type: not what is open, as an instance of a generic class is.
inductive Entered (program : Program) (asWritten : ClassId → Str → PyType) (start : PyType) : PyType → Prop
  | start : Entered program asWritten start start
  | annotated {base : PyType} {metadata : List Metadata}
      (h : Entered program asWritten start (.annotated base metadata))
      (hplain : ¬metadata.any fun item => item.serializer) : Entered program asWritten start base
  | union {name : Str} {args : List PyType} {arg : PyType}
      (h : Entered program asWritten start (.alias (.union name) args))
      (hfilter : args.filter (fun arg => arg ≠ .atom .none) = [arg]) : Entered program asWritten start arg
  | item {origin : Origin} {first : PyType} {rest : List PyType}
      (h : Entered program asWritten start (.alias origin (first :: rest)))
      (horigin : origin ∈ [.list, .tuple, .set, .frozenset]) : Entered program asWritten start first
  | value {key pyType : PyType} (h : Entered program asWritten start (.alias .dict [key, pyType])) :
      Entered program asWritten start pyType
  | field {id : ClassId} {parameters : List Str} {hints : List (Str × PyType)} {fields : List Str} {name : Str}
      (h : Entered program asWritten start (.atom (.cls id)))
      (hkind : (program.classAt id).kind = .dataclass parameters hints fields) (hname : name ∈ fields) :
      Entered program asWritten start (fieldType asWritten id hints name)

-- A value is admitted by the schema of a type, whichever classes are being entered.
def Admitted (program : Program) (declarations : Declarations) (pyType : PyType) (json : Json) : Prop :=
  ∀ seen, Validates (schema (classSchema program declarations seen) false pyType) json

variable {value : Value} {pyType : PyType} {json : Json}

theorem admitted_open (h : ∀ enter, schema enter false pyType = []) : Admitted program declarations pyType json := by
  intro seen
  rw [h]
  exact validates_open json

theorem admitted_array {origin : Origin} {args : List PyType} {elements : List Json}
    (hschema : ∀ enter, schema enter false (.alias origin args) = arraySchema ((argSchemas enter false args).headD []))
    (h : ∀ first rest, args = first :: rest → ∀ element ∈ elements, Admitted program declarations first element) :
    Admitted program declarations (.alias origin args) (.arr elements) := by
  intro seen
  rw [hschema]
  apply validates_array
  intro element helement
  cases args with
  | nil => exact validates_open element
  | cons first rest => exact h first rest rfl element helement seen

theorem admitted_union (hstandard : Standard program) {name : Str} {args : List PyType}
    (hlength : args.length ≠ 1) {arg : PyType} (harg : arg ∈ args)
    (hnone : arg = .atom .none → json = .null)
    (h : args.filter (fun arg => arg ≠ .atom .none) = [arg] → Admitted program declarations arg json) :
    Admitted program declarations (.alias (.union name) args) json := by
  intro seen
  rw [schema_union]
  split
  · rename_i only hfilter
    rw [if_neg hlength]
    by_cases heq : arg = .atom .none
    · rw [hnone heq]
      rcases @shaped_schema (classSchema program declarations seen) false
        (fun inModel id => shaped_classSchema hstandard inModel id) only with hopen | ⟨existing, htyped⟩
      · rw [hopen]
        exact validates_open _
      · exact validates_asNullable_null htyped
    · have hmem : arg ∈ args.filter fun arg => arg ≠ .atom .none := List.mem_filter.mpr ⟨harg, by simpa using heq⟩
      rw [hfilter] at hmem
      cases List.mem_singleton.mp hmem
      exact validates_asNullable (h hfilter seen)
  · exact validates_open json

theorem admitted_record {parameters : List Str} {hints : List (Str × PyType)} {fields : List Str}
    {values : List (Str × Value)} {members : Fields}
    (hkind : (program.classAt id).kind = .dataclass parameters hints fields) (hnames : values.map Prod.fst = fields)
    (hmembers : Entries.Related (fun _ value element => Writes value element)
      (Entries.update [] (values.map fun field => (toCamel field.1, field.2))) members)
    (h : ∀ field ∈ values, ∀ member ∈ members, Writes field.2 member.2 →
      Admitted program declarations (fieldType declarations.asWritten id hints field.1) member.2) :
    Admitted program declarations (.atom (.cls id)) (.obj members) := by
  intro seen
  show Validates (classSchema program declarations seen false id) _
  rw [classSchema_dataclass hkind]
  split
  · exact validates_open _
  · rw [← hnames, List.map_map]
    have hrelated : Entries.Related
        (fun _ property value => ∃ inner, property = Json.obj inner ∧
          ∀ member ∈ members, Writes value member.2 → Validates inner member.2)
        (values.map fun field => (toCamel field.1, Json.obj
          (schema (classSchema program declarations (id :: seen)) false
            ((Entries.get? field.1 hints).getD (declarations.asWritten id field.1)))))
        (values.map fun field => (toCamel field.1, field.2)) := by
      unfold Entries.Related
      rw [List.forall₂_map_left_iff, List.forall₂_map_right_iff, List.forall₂_same]
      intro field hfield
      refine ⟨rfl, _, rfl, fun member hmember hwritten => ?_⟩
      exact h field hfield member hmember hwritten (id :: seen)
    have hnodup : (Entries.keys members).Nodup := by
      rw [← hmembers.keys_eq]
      exact Entries.nodup_keys_update [] _ List.nodup_nil
    apply validates_record
    · intro name property hget member hmember hname
      subst hname
      obtain ⟨value, ⟨inner, heq, hvalid⟩, hwritten⟩ := hrelated.updated.through hmembers hnodup hget hmember
      cases heq
      exact hvalid member hmember hwritten
    · intro name hname
      obtain ⟨required, hrequired, rfl⟩ := List.mem_map.mp hname
      obtain ⟨field, hfield, rfl⟩ := List.mem_map.mp (List.mem_filter.mp hrequired).1
      rw [← hmembers.keys_eq, Entries.mem_keys_update]
      exact .inr (List.mem_map_of_mem (List.mem_map_of_mem hfield))

-- What is written of a value of a type is admitted by the type's schema. The induction is on the
-- size of what is written; what is written again of the same value goes along the typing.
theorem admitted (hstandard : Standard program) {start : PyType}
    (htidy : ∀ entered, Entered program declarations.asWritten start entered →
      Tidy program declarations.asWritten [] entered)
    (h : HasType program declarations.asWritten [] pyType value) (hwrites : Writes value json)
    (hentered : Entered program declarations.asWritten start pyType) : Admitted program declarations pyType json := by
  induction hsize : sizeOf json using Nat.strong_induction_on generalizing pyType value json with
  | _ size below =>
  subst hsize
  generalize hbindings : ([] : Bindings) = bindings at h
  induction h with
  | any | none | bound | unbound | other => exact admitted_open fun _ => rfl
  | primitive h => exact fun seen => validates_primitive h hwrites
  | path name written =>
      intro seen
      rw [writes_text hwrites]
      exact validates_typed (.string _)
  | literal hmem h => exact fun seen => validates_literal hmem h hwrites
  | @strEnum bindings id values text hkind hmem =>
      intro seen
      show Validates (classSchema program declarations seen false id) json
      rw [classSchema_strEnum hkind, @writes_scalar _ (.str text) _ hwrites]
      exact validates_enum (.string text) (List.mem_map_of_mem (List.mem_map_of_mem hmem))
  | @intEnum bindings id values n hkind hmem =>
      intro seen
      show Validates (classSchema program declarations seen false id) json
      rw [classSchema_intEnum hkind, @writes_scalar _ (.int n) _ hwrites]
      exact validates_enum (.integer n) (List.mem_map_of_mem (List.mem_map_of_mem hmem))
  | @record bindings pyType id parameters hints fields values hdefinition hkind hnames h _ =>
      obtain ⟨members, rfl, hmembers⟩ := writes_dataclass hwrites
      rcases pyType with atom | ⟨base, metadata⟩ | ⟨origin, args⟩
      · cases atom with
        | cls other =>
            cases hdefinition
            apply admitted_record hkind hnames hmembers
            intro field hfield member hmember hwritten
            have hname : field.1 ∈ fields := hnames ▸ List.mem_map_of_mem hfield
            have htyped := h field hfield
            rw [show parameters.zip ((typeArgs (.atom (.cls id))).map (substitute bindings)) = [] from
              List.zip_nil_right] at htyped
            exact below _ (sizeOf_member hmember) htyped hwritten (.field hentered hkind hname) rfl
        | none | any | ellipsis | typeVar | primitive | path | literal | other => cases hdefinition
      · cases hdefinition
      · cases origin with
        | cls => exact admitted_open fun _ => rfl
        | union | list | tuple | set | frozenset | dict => cases hdefinition
  | @plain bindings pyType id value hdefinition hkind =>
      rcases pyType with atom | ⟨base, metadata⟩ | ⟨origin, args⟩
      · cases atom with
        | cls other =>
            cases hdefinition
            intro seen
            show Validates (classSchema program declarations seen false id) json
            rw [classSchema_plain hkind]
            exact validates_open json
        | none | any | ellipsis | typeVar | primitive | path | literal | other => cases hdefinition
      · cases hdefinition
      · cases origin with
        | cls => exact admitted_open fun _ => rfl
        | union | list | tuple | set | frozenset | dict => cases hdefinition
  | annotated _ ih =>
      intro seen
      rw [schema]
      split
      · exact validates_open json
      · rename_i hplain
        exact ih hwrites (.annotated hentered hplain) hbindings seen
  | @union bindings name args arg value harg h ih =>
      apply admitted_union hstandard (Nat.ne_of_gt (htidy _ hentered)) harg
      · intro hnone
        subst hnone
        rw [h.none_value] at hwrites
        exact writes_none hwrites
      · exact fun hfilter => ih hwrites (.union hentered hfilter) hbindings
  | list h _ | set h _ | frozenset h _ =>
      subst hbindings
      obtain ⟨elements, rfl, helements⟩ := writes_array (by rw [toJsonable]) hwrites
      apply admitted_array fun _ => rfl
      rintro first rest rfl element helement
      obtain ⟨item, hitem, hwritten⟩ := exists_of_mem_right helements helement
      exact below _ (sizeOf_element helement) (h first List.mem_cons_self item hitem) hwritten
        (.item hentered (by decide)) rfl
  | anyTuple items =>
      obtain ⟨elements, rfl, -⟩ := writes_array (by rw [toJsonable]) hwrites
      exact admitted_array (fun _ => rfl) nofun
  | variadic h _ =>
      subst hbindings
      obtain ⟨elements, rfl, helements⟩ := writes_array (by rw [toJsonable]) hwrites
      apply admitted_array fun _ => rfl
      intro first rest heq element helement
      cases heq
      obtain ⟨item, hitem, hwritten⟩ := exists_of_mem_right helements helement
      exact below _ (sizeOf_element helement) (h item hitem) hwritten (.item hentered (by decide)) rfl
  | tuple hlength _ h _ =>
      subst hbindings
      obtain ⟨elements, rfl, helements⟩ := writes_array (by rw [toJsonable]) hwrites
      apply admitted_array fun _ => rfl
      rintro first rest rfl element helement
      obtain ⟨item, htyped, hwritten⟩ := written_tuple (htidy _ hentered) hlength h helements element helement
      exact below _ (sizeOf_element helement) htyped hwritten (.item hentered (by decide)) rfl
  | anyDict entries =>
      intro seen
      obtain ⟨members, rfl, -⟩ := writes_dict hwrites
      exact validates_map fun member _ => validates_open member.2
  | @dict bindings key pyType entries _ h _ _ =>
      subst hbindings
      intro seen
      obtain ⟨members, rfl, hmembers⟩ := writes_dict hwrites
      apply validates_map
      intro member hmember
      obtain ⟨entry, hentry, hwritten⟩ := exists_of_mem_right hmembers hmember
      exact below _ (sizeOf_member hmember) (h entry hentry) hwritten (.value hentered) rfl seen

end Classes

end Benzene.Contract.Payload
