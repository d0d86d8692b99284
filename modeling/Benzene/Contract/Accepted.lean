import Benzene.Contract.DerivedClosed
import Benzene.Contract.Instances
import Benzene.Data.JsonSchema

namespace Benzene.Contract.Derivation

open Benzene.Data Benzene.Data.JsonSchema
open Benzene.Core (Value toJsonable toJsonableItems asJson asJsonItems toCamel)

section Forms

variable {resolve : Str → Option Fields} {schema item : Fields} {name : Str} {value : Json}

theorem accepts_typed (h : OfType name value) : Accepts resolve (typed name) value :=
  .keywords rfl (fun _ htype => by cases htype; exact ⟨name, .one name, h⟩) (fun _ h => nomatch h)
    (fun _ _ h => nomatch h) (fun _ _ h => nomatch h) (fun _ _ _ _ h => nomatch h) (fun _ _ _ h => nomatch h)
    (fun _ _ h => nomatch h)

theorem accepts_formatted (format : Str) (h : OfType name value) : Accepts resolve (formatted name format) value :=
  .keywords rfl (fun _ htype => by cases htype; exact ⟨name, .one name, h⟩) (fun _ h => nomatch h)
    (fun _ _ h => nomatch h) (fun _ _ h => nomatch h) (fun _ _ _ _ h => nomatch h) (fun _ _ _ h => nomatch h)
    (fun _ _ h => nomatch h)

theorem accepts_array {elements : List Json} (h : ∀ element ∈ elements, Accepts resolve item element) :
    Accepts resolve (arraySchema item) (.arr elements) :=
  .keywords rfl (fun _ htype => by cases htype; exact ⟨_, .one _, .array elements⟩) (fun _ h => nomatch h)
    (fun _ _ hitem hvalue => by cases hitem; cases hvalue; exact h) (fun _ _ h => nomatch h)
    (fun _ _ _ _ h => nomatch h) (fun _ _ _ h => nomatch h) (fun _ _ h => nomatch h)

theorem accepts_map {members : Fields} (h : ∀ member ∈ members, Accepts resolve item member.2) :
    Accepts resolve (mapSchema item) (.obj members) :=
  .keywords rfl (fun _ htype => by cases htype; exact ⟨_, .one _, .object members⟩) (fun _ h => nomatch h)
    (fun _ _ h => nomatch h) (fun _ _ hitem hvalue => by cases hitem; cases hvalue; exact h)
    (fun _ _ _ _ h => nomatch h) (fun _ _ _ h => nomatch h) (fun _ _ h => nomatch h)

theorem accepts_enum {values : List Scalar} (h : OfType name value) (hmem : value ∈ values.map Scalar.toJson) :
    Accepts resolve (enumSchema name values) value :=
  .keywords rfl (fun _ htype => by cases htype; exact ⟨name, .one name, h⟩)
    (fun _ henum => by cases henum; exact List.mem_map_of_mem hmem)
    (fun _ _ h => nomatch h) (fun _ _ h => nomatch h) (fun _ _ _ _ h => nomatch h) (fun _ _ _ h => nomatch h)
    (fun _ _ h => nomatch h)

theorem accepts_record {properties : Fields} {required : List Str} {members : Fields}
    (hproperties : ∀ name property, Entries.get? name (Entries.update [] properties) = some (.obj property) →
      ∀ member ∈ members, member.1 = name → Accepts resolve property member.2)
    (hrequired : ∀ name ∈ required, name ∈ Entries.keys members) :
    Accepts resolve (recordSchema properties required) (.obj members) := by
  unfold recordSchema Json.fieldIf
  by_cases hempty : required = []
  · subst hempty
    exact .keywords rfl (fun _ htype => by cases htype; exact ⟨_, .one _, .object members⟩) (fun _ h => nomatch h)
      (fun _ _ h => nomatch h) (fun _ _ h => nomatch h)
      (fun _ _ name property hprops hvalue hget => by cases hprops; cases hvalue; exact hproperties name property hget)
      (fun _ _ _ h => nomatch h) (fun _ _ h => nomatch h)
  · rw [if_pos (by simpa using hempty)]
    refine .keywords rfl (fun _ htype => by cases htype; exact ⟨_, .one _, .object members⟩) (fun _ h => nomatch h)
      (fun _ _ h => nomatch h) (fun _ _ h => nomatch h)
      (fun _ _ name property hprops hvalue hget => by cases hprops; cases hvalue; exact hproperties name property hget)
      ?_ (fun _ _ h => nomatch h)
    intro names written name hnames hvalue hmem
    cases hnames
    cases hvalue
    obtain ⟨other, hother, heq⟩ := List.mem_map.mp hmem
    cases heq
    exact hrequired _ hother

theorem get?_nullable {key : Str} (hkey : key ≠ "nullable") (fields : Fields) :
    Entries.get? key (Entries.set "nullable" (.bool true) fields) = Entries.get? key fields := by
  rw [Entries.get?_set, if_neg fun heq => hkey heq.symm]

theorem accepts_set_nullable (href : Entries.get? ("$ref" : Str) schema = none) (h : Accepts resolve schema value) :
    Accepts resolve (Entries.set "nullable" (.bool true) schema) value := by
  have hget : ∀ {key : Str}, key ≠ "nullable" →
      Entries.get? key (Entries.set "nullable" (.bool true) schema) = Entries.get? key schema :=
    fun hkey => get?_nullable hkey schema
  have href' : Entries.get? ("$ref" : Str) (Entries.set "nullable" (.bool true) schema) = none := by
    rw [hget (by decide)]
    exact href
  cases h with
  | reference hsome => rw [href] at hsome; cases hsome
  | null => exact .null href' (Entries.get?_set_self _ _ _)
  | keywords _ htype henum hitems hadditional hproperties hrequired hallOf =>
      rw [← @hget "type" (by decide)] at htype
      rw [← @hget "enum" (by decide)] at henum
      rw [← @hget "items" (by decide)] at hitems
      rw [← @hget "additionalProperties" (by decide)] at hadditional
      rw [← @hget "properties" (by decide)] at hproperties
      rw [← @hget "required" (by decide)] at hrequired
      rw [← @hget "allOf" (by decide)] at hallOf
      exact .keywords href' htype henum hitems hadditional hproperties hrequired hallOf

theorem accepts_wrapper (h : Accepts resolve schema value) (htype : OfType name value) :
    Accepts resolve [Json.field "type" (.str name), Json.field "nullable" (.bool true),
      Json.field "allOf" (.arr [.obj schema])] value :=
  .keywords rfl (fun _ heq => by cases heq; exact ⟨name, .one name, htype⟩) (fun _ h => nomatch h)
    (fun _ _ h => nomatch h) (fun _ _ h => nomatch h) (fun _ _ _ _ h => nomatch h) (fun _ _ _ h => nomatch h)
    (fun _ branch hbranches hmem => by cases hbranches; cases List.mem_singleton.mp hmem; exact h)

-- A schema that may be null accepts null, and what it accepted before: one that refers to a
-- component is wrapped with the component's type.
theorem accepts_nullable_null {refType : Option Str}
    (href : refType = none → Entries.get? ("$ref" : Str) schema = none) :
    Accepts resolve (nullable schema refType) .null := by
  have hset : Entries.get? ("$ref" : Str) schema = none →
      Accepts resolve (Entries.set "nullable" (.bool true) schema) .null := by
    intro hnone
    refine .null ?_ (Entries.get?_set_self _ _ _)
    rw [get?_nullable (by decide)]
    exact hnone
  unfold nullable
  by_cases hempty : schema = []
  · rw [if_pos hempty, hempty]
    exact accepts_open _
  · rw [if_neg hempty]
    cases refType with
    | none => exact hset (href rfl)
    | some name =>
        dsimp only
        split
        · exact .null rfl rfl
        · rename_i hsome
          exact hset (Option.not_isSome_iff_eq_none.mp hsome)

theorem accepts_nullable {refType : Option Str} (href : refType = none → Entries.get? ("$ref" : Str) schema = none)
    (htype : ∀ name, refType = some name → OfType name value) (h : Accepts resolve schema value) :
    Accepts resolve (nullable schema refType) value := by
  unfold nullable
  by_cases hempty : schema = []
  · rw [if_pos hempty]
    exact h
  · rw [if_neg hempty]
    cases refType with
    | none => exact accepts_set_nullable (href rfl) h
    | some name =>
        dsimp only
        split
        · exact accepts_wrapper h (htype name rfl)
        · rename_i hsome
          exact accepts_set_nullable (Option.not_isSome_iff_eq_none.mp hsome) h

end Forms

section Leaves

variable [UnicodeData] {resolve : Str → Option Fields} {value : Value} {json : Json}

theorem writes_none (h : Writes .none json) : json = .null := by
  obtain ⟨written, h, hjson⟩ := h
  rw [toJsonable] at h
  · cases h
    cases hjson
    rfl
  all_goals simp

theorem writes_float {x : PyFloat} (h : Writes (.float x) json) : json = .float x := by
  obtain ⟨written, h, hjson⟩ := h
  rw [toJsonable] at h
  · cases h
    cases hjson
    rfl
  all_goals simp

theorem writes_text {type : Core.TextType} {text : Str} (h : Writes (.text type text) json) : json = .str text := by
  obtain ⟨written, h, hjson⟩ := h
  rw [toJsonable] at h
  cases h
  cases hjson
  rfl

theorem writes_bytes {data : List UInt8} (h : Writes (.bytes data) json) : json = .str (Core.base64 data) := by
  obtain ⟨written, h, hjson⟩ := h
  rw [toJsonable] at h
  cases h
  cases hjson
  rfl

theorem writes_timedelta {microseconds : Int} (h : Writes (.timedelta microseconds) json) :
    json = .str (Core.isoDuration microseconds) := by
  obtain ⟨written, h, hjson⟩ := h
  rw [toJsonable] at h
  cases h
  cases hjson
  rfl

theorem ofType_decimal {x : PyFloat} (h : Writes (.decimal x) json) : OfType "number" json := by
  obtain ⟨written, h, hjson⟩ := h
  rw [toJsonable] at h
  cases h
  unfold Core.decimalNumber at hjson
  split at hjson
  · split at hjson
    · cases hjson
      exact .whole _
    · cases hjson
      exact .number _
  · cases hjson
    exact .number _

theorem accepts_primitive {primitive : Primitive} (h : OfPrimitive primitive value) (hwrites : Writes value json) :
    Accepts resolve (primitiveSchema primitive) json := by
  cases h with
  | bool b =>
      rw [@writes_scalar _ (.bool b) _ hwrites]
      exact accepts_typed (.boolean b)
  | int n =>
      rw [@writes_scalar _ (.int n) _ hwrites]
      exact accepts_typed (.integer n)
  | float x =>
      rw [writes_float hwrites]
      exact accepts_formatted _ (.number x)
  | whole n =>
      rw [@writes_scalar _ (.int n) _ hwrites]
      exact accepts_formatted _ (.whole n)
  | str text =>
      rw [@writes_scalar _ (.str text) _ hwrites]
      exact accepts_typed (.string text)
  | bytes data =>
      rw [writes_bytes hwrites]
      exact accepts_formatted _ (.string _)
  | datetime | date | uuid =>
      rw [writes_text hwrites]
      exact accepts_formatted _ (.string _)
  | time =>
      rw [writes_text hwrites]
      exact accepts_typed (.string _)
  | timedelta =>
      rw [writes_timedelta hwrites]
      exact accepts_formatted _ (.string _)
  | decimal x => exact accepts_typed (ofType_decimal hwrites)

omit [UnicodeData] in
theorem ofType_scalar {scalar : Scalar} {name : Str} (h : literalType (.value scalar) = some name) :
    OfType name scalar.toJson := by
  cases scalar with
  | bool b =>
      cases h
      exact .boolean b
  | int n =>
      cases h
      exact .integer n
  | str text =>
      cases h
      exact .string text

omit [UnicodeData] in
theorem accepts_literalOf {name : Str} {scalars : List Scalar} (nullable : Bool)
    (h : Accepts resolve (enumSchema name scalars) json) : Accepts resolve (literalOf name scalars nullable) json := by
  unfold literalOf
  cases nullable with
  | false =>
      rw [show Json.fieldIf false "nullable" (.bool true) = [] from rfl, List.append_nil]
      exact h
  | true => exact accepts_set_nullable rfl h

theorem accepts_literal {values : List LiteralValue} {literal : LiteralValue} (hmem : literal ∈ values)
    (h : OfLiteral literal value) (hwrites : Writes value json) : Accepts resolve (literalSchema values) json := by
  rcases literalSchema_cases values with hopen | ⟨name, scalars, hschema, hscalars⟩
  · rw [hopen]
    exact accepts_open _
  · rw [hschema]
    cases h with
    | none =>
        rw [writes_none hwrites, decide_eq_true hmem]
        exact .null rfl rfl
    | value scalar =>
        obtain ⟨other, hother, hwritten, htype⟩ := hscalars _ hmem (by simp)
        cases hwritten
        rw [writes_scalar hwrites]
        exact accepts_literalOf _ (accepts_enum (ofType_scalar htype) (List.mem_map_of_mem hother))
    | member scalar =>
        obtain ⟨other, hother, hwritten, htype⟩ := hscalars _ hmem (by simp)
        cases hwritten
        rw [writes_scalar hwrites]
        exact accepts_literalOf _ (accepts_enum (ofType_scalar htype) (List.mem_map_of_mem hother))
    | plainMember =>
        obtain ⟨_, -, hwritten, -⟩ := hscalars _ hmem (by simp)
        cases hwritten
    | bytes =>
        obtain ⟨_, -, hwritten, -⟩ := hscalars _ hmem (by simp)
        cases hwritten

end Leaves

section Regularity

-- A program of the standard library's own classes: enums, dataclasses and plain ones.
def Standard (program : Program) : Prop :=
  ∀ definition ∈ program.classes, (∀ fields computed serialized, definition.kind ≠ .model fields computed serialized) ∧
    ∀ root serialized, definition.kind ≠ .rootModel root serialized

theorem Standard.kind {program : Program} (h : Standard program) (id : ClassId) :
    (∀ fields computed serialized, (program.classAt id).kind ≠ .model fields computed serialized) ∧
      ∀ root serialized, (program.classAt id).kind ≠ .rootModel root serialized := by
  unfold Program.classAt
  cases hclass : program.classes[id]? with
  | none => exact ⟨fun _ _ _ heq => (nomatch heq), fun _ _ heq => (nomatch heq)⟩
  | some definition => exact h definition (List.mem_of_getElem? hclass)

-- An annotated type that comes to a reference without being a hoisted type itself: where it may be
-- null, the reference goes without its wrapper.
inductive Hides (program : Program) (bindings : Bindings) : PyType → Prop
  | named {base : PyType} {metadata : List Metadata} (hplain : ¬metadata.any fun item => item.serializer)
      (h : isNamed program (resolveVar bindings base) = true) : Hides program bindings (.annotated base metadata)
  | nested {base : PyType} {metadata : List Metadata} (hplain : ¬metadata.any fun item => item.serializer)
      (h : Hides program bindings (resolveVar bindings base)) : Hides program bindings (.annotated base metadata)

-- Where a type may be null, it shows what it refers to.
def Shows (program : Program) (bindings : Bindings) : PyType → Prop
  | .alias (.union _) args =>
      ∀ arg, args.filter (fun arg => arg ≠ .atom .none) = [arg] → ¬Hides program bindings (resolveVar bindings arg)
  | _ => True

variable [UnicodeData] (program : Program) (asWritten : ClassId → Str → PyType)

-- What a value of the other type writes, a value of the first could have written.
def Covers (bindings : Bindings) (first other : PyType) : Prop :=
  ∀ value json, HasType program asWritten bindings other value → Writes value json →
    ∃ covering, HasType program asWritten bindings first covering ∧ Writes covering json

-- What every schema of a type takes for granted: a union has more than one member, and the first
-- item of a tuple speaks for the others.
def Tidy (bindings : Bindings) : PyType → Prop
  | .alias (.union _) args => 2 ≤ args.length
  | .alias .tuple (first :: rest) => ∀ other ∈ rest, Covers program asWritten bindings first other
  | _ => True

-- What is met is as the derivation takes it.
structure Regular (start : Context → PyType → Prop) : Prop where
  standard : Standard program
  applied : Applied program start
  tidy : ∀ context pyType, Met program start context pyType →
    Tidy program asWritten context.bindings (resolveVar context.bindings pyType)
  shows : ∀ context pyType, Met program start context pyType →
    Shows program context.bindings (resolveVar context.bindings pyType)

end Regularity

section Acceptance

variable [UnicodeData] {program : Program} {asWritten : ClassId → Str → PyType} {start : Context → PyType → Prop}
  {resolve : Str → Option Fields}

-- Where a type of a program without models is derived.
structure PlainContext (context : Context) : Prop where
  roots : context.roots = []
  inModel : context.inModel = false
  bindings : SimpleBindings context.bindings

theorem Regular.plain (h : Regular program asWritten start)
    (hstart : ∀ context pyType, start context pyType → context = topLevel) {context : Context} {pyType : PyType}
    (hmet : Met program start context pyType) : PlainContext context := by
  induction hmet with
  | start hstarts =>
      rw [hstart _ _ hstarts]
      exact ⟨rfl, rfl, simpleBindings_nil⟩
  | within _ hrule ih =>
      rcases rule_within_cases hrule with ⟨rfl, -⟩ | ⟨id, hkind, -⟩
      · exact ih
      · exact absurd hkind ((h.standard.kind id).2 _ _)
  | @property context inner pyType key other properties property hmet hrule hcontent _ _ ih =>
      have hargs := fun arg => @Applied.typeArgs _ _ _ _ _ h.applied hmet ih.bindings _ arg hrule
      unfold content at hcontent
      split at hcontent
      · cases hcontent
      · cases hcontent
      · rename_i hkind
        obtain ⟨id, -, hkind⟩ := Option.map_eq_some_iff.mp hkind
        exact absurd hkind ((h.standard.kind id).1 _ _ _)
      · cases hcontent
        exact ⟨ih.roots, ih.inModel, fun entry hentry => hargs entry.2 (List.of_mem_zip hentry).2⟩
      · cases hcontent

-- Every hoisted type has a component of its own, by its name.
def Resolves (program : Program) (start : Context → PyType → Prop) (resolve : Str → Option Fields)
    (called : PyType → Str) : Prop :=
  ∀ key, Hoists program start key → ∃ blueprint, DescribesContent program (content program topLevel key) blueprint ∧
    (∀ other ∈ blueprint.keys, Hoists program start other) ∧
    resolve (schemaRefPrefix ++ called key) = some (blueprint.derived called).1

-- A type that is met, or that a variable stands for that is met.
def Reached (program : Program) (start : Context → PyType → Prop) (context : Context) (pyType : PyType) : Prop :=
  ∃ source, Met program start context source ∧ resolveVar context.bindings source = resolveVar context.bindings pyType

variable {context : Context} {pyType : PyType} {outline : Outline} {called : PyType → Str}

theorem Reached.within {inner : Context} {other : PyType} {wrap : Wrap} (h : Reached program start context pyType)
    (hrule : rule program context pyType = .within inner other wrap) : Reached program start inner other := by
  obtain ⟨source, hmet, hsource⟩ := h
  rw [← rule_of_resolveVar hsource] at hrule
  exact ⟨other, .within hmet hrule, rfl⟩

-- A generic class that is reached is applied to simple types.
theorem Reached.typeArgs (h : Reached program start context pyType) (happlied : Applied program start)
    (hbindings : SimpleBindings context.bindings) {id : ClassId} (hdefinition : definition pyType = some id)
    {key : PyType} (hrule : rule program context pyType = .component key) : ∀ arg ∈ typeArgs pyType, Simple arg := by
  obtain ⟨source, hmet, hsource⟩ := h
  intro arg harg
  rcases pyType with atom | ⟨base, metadata⟩ | ⟨origin, args⟩
  · cases harg
  · cases harg
  · cases origin with
    | cls id =>
        rw [← rule_of_resolveVar hsource] at hrule
        change resolveVar context.bindings source = .alias (.cls id) args at hsource
        rcases resolveVar_cases hbindings source with hself | hsimple
        · rw [hself] at hsource
          subst hsource
          exact happlied context id args key hmet hrule arg harg
        · rw [hsource] at hsimple
          rcases hsimple with ⟨name, heq⟩ | hclosed
          · cases heq
          · exact .inr (Part.closed (.arg harg) hclosed)
    | union | list | tuple | set | frozenset | dict => cases hdefinition

omit [UnicodeData] in
-- Every named type becomes a component, where nothing is derived inside a model.
theorem rule_named (hcontext : PlainContext context)
    (hnamed : isNamed program (resolveVar context.bindings pyType) = true) :
    rule program context pyType = .component (resolveAlias context.bindings (resolveVar context.bindings pyType)) := by
  apply rule_component_iff.mpr
  rw [hcontext.inModel, Bool.false_and]
  exact ⟨rfl, hnamed, rfl⟩

-- What a type is derived from, where there are no models.
inductive Within (program : Program) (context : Context) : PyType → PyType → Wrap → Prop
  | annotated {base : PyType} {metadata : List Metadata} (hplain : ¬metadata.any fun item => item.serializer) :
      Within program context (.annotated base metadata) base .same
  | union {name : Str} {args : List PyType} {arg : PyType} (hargs : args.filter (fun arg => arg ≠ .atom .none) = [arg])
      (hlength : args.length ≠ 1) :
      Within program context (.alias (.union name) args) arg (.nullable (refType program context.bindings arg))
  | array {origin : Origin} {args : List PyType} {arg : PyType} (harg : arg ∈ args) :
      Within program context (.alias origin args) arg .array
  | map {key value : PyType} : Within program context (.alias .dict [key, value]) value .map

omit [UnicodeData] in
theorem mem_of_filter {α : Type} {p : α → Bool} {items rest : List α} {item : α} (h : items.filter p = item :: rest) :
    item ∈ items ∧ p item = true := by
  rw [← List.mem_filter, h]
  exact List.mem_cons_self

omit [UnicodeData] in
theorem arrayRule_within {args : List PyType} {origin : Origin} {inner : Context} {other : PyType} {wrap : Wrap}
    (h : arrayRule context args = .within inner other wrap) :
    inner = context ∧ Within program context (.alias origin args) other wrap := by
  unfold arrayRule at h
  split at h
  · rename_i item rest hargs
    cases h
    exact ⟨rfl, .array (mem_of_filter hargs).1⟩
  · cases h

theorem rule_within (hstandard : Standard program)
    (htidy : Tidy program asWritten context.bindings (resolveVar context.bindings pyType)) {inner : Context}
    {other : PyType} {wrap : Wrap} (h : rule program context pyType = .within inner other wrap) :
    inner = context ∧ Within program context (resolveVar context.bindings pyType) other wrap := by
  unfold rule at h
  generalize resolveVar context.bindings pyType = resolved at h htidy ⊢
  rcases resolved with atom | ⟨base, metadata⟩ | ⟨origin, args⟩
  · cases atom with
    | cls id =>
        dsimp only at h
        cases hkind : (program.classAt id).kind with
        | rootModel root serialized => exact absurd hkind ((hstandard.kind id).2 root serialized)
        | strEnum | intEnum | dataclass | model | plain =>
            rw [hkind] at h
            exact absurd h classRule_within
    | none | any | ellipsis | typeVar | primitive | path | literal | other => cases h
  · dsimp only at h
    split at h
    · cases h
    · rename_i hplain
      cases h
      exact ⟨rfl, .annotated hplain⟩
  · cases origin with
    | cls id => exact absurd h classRule_within
    | union name =>
        dsimp only at h
        split at h
        · rename_i hargs
          have hlength : args.length ≠ 1 := Nat.ne_of_gt htidy
          rw [if_neg hlength] at h
          cases h
          exact ⟨rfl, .union hargs hlength⟩
        · cases h
    | list | tuple | set | frozenset => exact arrayRule_within h
    | dict =>
        dsimp only at h
        split at h
        · cases h
          exact ⟨rfl, .map⟩
        · cases h

omit [UnicodeData] in
theorem get?_ref_leaf {schema : Fields} (h : Leaf schema) : Entries.get? ("$ref" : Str) schema = none := by
  cases h with
  | any | array | map | path => rfl
  | primitive primitive => cases primitive <;> rfl
  | literal name scalars nullable => cases nullable <;> rfl

omit [UnicodeData] in
theorem get?_ref_nullable {schema : Fields} {refType : Option Str}
    (h : refType = none → Entries.get? ("$ref" : Str) schema = none) :
    Entries.get? ("$ref" : Str) (nullable schema refType) = none := by
  have hset : Entries.get? ("$ref" : Str) schema = none →
      Entries.get? ("$ref" : Str) (Entries.set "nullable" (.bool true) schema) = none := by
    intro hnone
    rw [get?_nullable (by decide)]
    exact hnone
  unfold nullable
  by_cases hempty : schema = []
  · rw [if_pos hempty, hempty]
    rfl
  · rw [if_neg hempty]
    cases refType with
    | none => exact hset (h rfl)
    | some name =>
        dsimp only
        split
        · rfl
        · rename_i hsome
          exact hset (Option.not_isSome_iff_eq_none.mp hsome)

omit [UnicodeData] in
theorem get?_record {key : Str} {properties : Fields} {required : List Str} (htype : ("type" : Str) ≠ key)
    (hproperties : ("properties" : Str) ≠ key) (hrequired : ("required" : Str) ≠ key) :
    Entries.get? key (recordSchema properties required) = none := by
  rw [Entries.get?_eq_none_iff]
  unfold recordSchema Json.fieldIf
  split <;> simp [htype.symm, hproperties.symm, hrequired.symm]

omit [UnicodeData] in
theorem refType_none {bindings : Bindings} (h : refType program bindings pyType = none) :
    isNamed program (resolveVar bindings pyType) = false := by
  unfold refType at h
  dsimp only at h
  split at h
  · split at h <;> cases h
  · rename_i hnamed
    exact Bool.eq_false_iff.mpr hnamed

-- What is not named, and annotates nothing named, is written without a reference.
theorem write_ref (hregular : Regular program asWritten start) (h : Describes program context pyType outline)
    (hmet : Met program start context pyType)
    (hshows : ¬Hides program context.bindings (resolveVar context.bindings pyType))
    (hnamed : isNamed program (resolveVar context.bindings pyType) = false) :
    Entries.get? ("$ref" : Str) (outline.write called) = none := by
  induction h with
  | schema hrule => exact get?_ref_leaf (rule_leaf hrule)
  | component hrule =>
      rw [(rule_component_iff.mp hrule).2.1] at hnamed
      cases hnamed
  | @within context inner pyType other wrap rest hrule hinner ih =>
      obtain ⟨rfl, hwithin⟩ := rule_within hregular.standard (hregular.tidy _ _ hmet) hrule
      have hunion := hregular.shows _ _ hmet
      have hother := Met.within hmet hrule
      show Entries.get? ("$ref" : Str) (wrap.apply (rest.write called)) = none
      generalize resolveVar inner.bindings pyType = resolved at hwithin hshows hunion
      cases hwithin with
      | annotated hplain =>
          refine ih hother (fun hhides => hshows (.nested hplain hhides)) ?_
          exact Bool.eq_false_iff.mpr fun hbase => hshows (.named hplain hbase)
      | array => rfl
      | map => rfl
      | union hfilter => exact get?_ref_nullable fun hnone => ih hother (hunion other hfilter) (refType_none hnone)

-- A value is accepted by what the type is derived to.
def Fits (program : Program) (start : Context → PyType → Prop) (resolve : Str → Option Fields)
    (called : PyType → Str) (context : Context) (pyType : PyType) (json : Json) : Prop :=
  ∀ outline, Describes program context pyType outline → (∀ key ∈ outline.ending.keys, Hoists program start key) →
    Accepts resolve (outline.write called) json

variable {value : Value} {json : Json}

theorem fits_schema {schema : Fields} (hrule : rule program context pyType = .schema schema)
    (h : Accepts resolve schema json) : Fits program start resolve called context pyType json := by
  intro outline hdescribes _
  rw [hdescribes.of_schema hrule]
  exact h

theorem fits_open (hrule : rule program context pyType = .schema []) :
    Fits program start resolve called context pyType json :=
  fits_schema hrule (accepts_open json)

omit [UnicodeData] in
theorem arrayRule_cons {args rest : List PyType} {arg : PyType}
    (h : args.filter (fun arg => arg ≠ .atom .ellipsis) = arg :: rest) :
    arrayRule context args = .within context arg .array := by
  unfold arrayRule
  rw [h]

-- An array is derived from the first of its arguments that says of what.
theorem fits_array {args : List PyType} {elements : List Json}
    (hrule : rule program context pyType = arrayRule context args)
    (h : ∀ arg rest, args.filter (fun arg => arg ≠ .atom .ellipsis) = arg :: rest → ∀ element ∈ elements,
      Fits program start resolve called context arg element) :
    Fits program start resolve called context pyType (.arr elements) := by
  intro outline hdescribes hkeys
  cases hargs : args.filter fun arg => arg ≠ .atom .ellipsis with
  | nil =>
      unfold arrayRule at hrule
      rw [hargs] at hrule
      rw [hdescribes.of_schema hrule]
      exact accepts_array fun element _ => accepts_open element
  | cons arg rest =>
      rw [arrayRule_cons hargs] at hrule
      obtain ⟨inner, hinner, rfl⟩ := hdescribes.of_within hrule
      apply accepts_array
      intro element helement
      exact h arg rest hargs element helement inner hinner hkeys

-- A component's schema names the type that its nullable wrapper names.
theorem ofType_refType (hstandard : Standard program) (hcontext : PlainContext context)
    (hresolves : Resolves program start resolve called) {name : Str} {json : Json}
    (hname : refType program context.bindings pyType = some name)
    (hdescribes : Describes program context pyType outline)
    (hkeys : ∀ key ∈ outline.ending.keys, Hoists program start key)
    (h : Accepts resolve (outline.write called) json) : OfType name json := by
  unfold refType at hname
  dsimp only at hname
  split at hname
  · rename_i hnamed
    have hrule := rule_named hcontext hnamed
    rw [hdescribes.of_component hrule] at hkeys h
    obtain ⟨blueprint, hblueprint, -, htarget⟩ := hresolves _ (hkeys _ (List.mem_singleton_self _))
    have haccepts := h.through rfl htarget
    unfold content at hblueprint
    rw [definition_resolveAlias] at hblueprint
    unfold isNamed at hnamed
    generalize definition (resolveVar context.bindings pyType) = defined at hblueprint hname hnamed
    cases defined with
    | none => cases hnamed
    | some id =>
        dsimp only [Option.map_some] at hblueprint hname hnamed
        cases hkind : (program.classAt id).kind with
        | strEnum values =>
            rw [hkind] at hblueprint hname
            cases hname
            cases hblueprint
            exact haccepts.ofType rfl rfl rfl
        | intEnum values =>
            rw [hkind] at hblueprint hname
            cases hname
            cases hblueprint
            exact haccepts.ofType rfl rfl rfl
        | dataclass parameters hints fields =>
            rw [hkind] at hblueprint hname
            cases hname
            cases hblueprint with
            | record hforall =>
                apply haccepts.ofType
                · exact get?_record (by decide) (by decide) (by decide)
                · exact get?_record (by decide) (by decide) (by decide)
                · rfl
        | model fields computed serialized => exact absurd hkind ((hstandard.kind id).1 _ _ _)
        | rootModel root serialized => exact absurd hkind ((hstandard.kind id).2 _ _)
        | plain =>
            rw [hkind] at hnamed
            cases hnamed
  · cases hname

omit [UnicodeData] in
theorem rule_optional {name : Str} {args : List PyType} {arg : PyType}
    (hfilter : args.filter (fun arg => arg ≠ .atom .none) = [arg]) (hlength : args.length ≠ 1) :
    rule program context (.alias (.union name) args) =
      .within context arg (.nullable (refType program context.bindings arg)) := by
  unfold rule resolveVar
  dsimp only
  rw [hfilter]
  dsimp only
  rw [if_neg hlength]

omit [UnicodeData] in
theorem rule_union {name : Str} {args : List PyType}
    (hfilter : ∀ arg, args.filter (fun arg => arg ≠ .atom .none) ≠ [arg]) :
    rule program context (.alias (.union name) args) = .schema [] := by
  unfold rule resolveVar
  dsimp only
  split
  · rename_i arg heq
    exact absurd heq (hfilter arg)
  · rfl

-- A union is open, unless it is that of `None` and one other type.
theorem fits_union (hregular : Regular program asWritten start) (hcontext : PlainContext context)
    (hresolves : Resolves program start resolve called) {name : Str} {args : List PyType} {arg : PyType}
    (hreached : Reached program start context (.alias (.union name) args)) (harg : arg ∈ args)
    (hnone : arg = .atom .none → json = .null)
    (h : Reached program start context arg → Fits program start resolve called context arg json) :
    Fits program start resolve called context (.alias (.union name) args) json := by
  obtain ⟨source, hmet, hsource⟩ := hreached
  have htidy := hregular.tidy context source hmet
  have hunion := hregular.shows context source hmet
  rw [hsource] at htidy hunion
  by_cases hfilter : ∃ only, args.filter (fun arg => arg ≠ .atom .none) = [only]
  · obtain ⟨only, hfilter⟩ := hfilter
    have hrule := @rule_optional program context name args only hfilter (Nat.ne_of_gt htidy)
    intro outline hdescribes hkeys
    obtain ⟨rest, hrest, rfl⟩ := hdescribes.of_within hrule
    rw [← rule_of_resolveVar hsource] at hrule
    have honly := Met.within hmet hrule
    have href : refType program context.bindings only = none →
        Entries.get? ("$ref" : Str) (rest.write called) = none := fun hnamed =>
      write_ref hregular hrest honly (hunion only hfilter) (refType_none hnamed)
    show Accepts resolve (nullable (rest.write called) _) json
    by_cases heq : arg = .atom .none
    · rw [hnone heq]
      exact accepts_nullable_null href
    · have hsame : arg = only := by
        have hother : arg ∈ args.filter fun arg => arg ≠ .atom .none := List.mem_filter.mpr ⟨harg, by simpa using heq⟩
        rw [hfilter] at hother
        exact List.mem_singleton.mp hother
      subst hsame
      have haccepts := h ⟨arg, honly, rfl⟩ rest hrest hkeys
      exact accepts_nullable href
        (fun refName hname => ofType_refType hregular.standard hcontext hresolves hname hrest hkeys haccepts) haccepts
  · exact fits_open (rule_union fun only heq => hfilter ⟨only, heq⟩)

omit [UnicodeData] in
-- What a dataclass's variables stand for, in its component and in its type.
theorem record_bindings {bindings : Bindings} {id : ClassId} (hdefinition : definition pyType = some id)
    (hargs : ∀ arg ∈ typeArgs pyType, Simple arg)
    (hagree : ∀ name ∈ typeVars pyType, Entries.get? name bindings = Entries.get? name context.bindings) :
    typeArgs (resolveAlias context.bindings pyType) = (typeArgs pyType).map (substitute bindings) := by
  rcases pyType with atom | ⟨base, metadata⟩ | ⟨origin, args⟩
  · cases atom with
    | cls => rfl
    | none | any | ellipsis | typeVar | primitive | path | literal | other => cases hdefinition
  · cases hdefinition
  · cases origin with
    | union | list | tuple | set | frozenset | dict => cases hdefinition
    | cls other =>
        rw [resolveAlias_alias]
        apply List.map_congr_left
        intro arg harg
        apply resolveArg_eq (hargs arg harg)
        intro name hname
        exact hagree name (mem_argTypeVars.mpr ⟨arg, harg, hname⟩)

omit [UnicodeData] in
theorem resolveVar_definition (bindings : Bindings) {id : ClassId} (h : definition pyType = some id) :
    resolveVar bindings pyType = pyType := by
  unfold resolveVar
  split
  · cases h
  · rfl

-- The fields of a dataclass beside what their properties are derived to.
theorem related_fields {hints : List (Str × PyType)} {values : List (Str × Value)}
    {described : List (Property × Outline)} {P : Outline → Value → Prop}
    (hall : List.Forall₂ (DescribesProperty program context) (recordProperties hints (values.map Prod.fst)) described)
    (h : ∀ field ∈ values, ∀ property ∈ described,
      Describes program context ((Entries.get? field.1 hints).getD (.atom .any)) property.2 → P property.2 field.2) :
    Entries.Related (fun _ outline value => P outline value)
      (described.map fun property => (property.1.name, property.2))
      (values.map fun field => (toCamel field.1, field.2)) := by
  induction values generalizing described with
  | nil =>
      cases hall
      exact .nil
  | cons field rest ih =>
      cases hall with
      | @cons _ property _ others hfirst hrest =>
          obtain ⟨hsame, hdescribes⟩ := hfirst
          have hheld := h field List.mem_cons_self property List.mem_cons_self hdescribes
          refine .cons ⟨congrArg Property.name hsame, hheld⟩ (ih hrest ?_)
          intro other hother otherProperty hproperty
          exact h other (List.mem_cons_of_mem _ hother) otherProperty (List.mem_cons_of_mem _ hproperty)

omit [UnicodeData] in
theorem Blueprint.derived_record (called : PyType → Str) (described : List (Property × Outline)) :
    ((Blueprint.record described).derived called).1 =
      recordSchema (Entries.mapValues (fun outline => Json.obj (outline.write called))
          (described.map fun property => (property.1.name, property.2)))
        ((described.filter fun property => property.1.required).map fun property => property.1.name) := by
  simp only [Blueprint.derived, derivedProperties, Entries.mapValues, List.map_map, List.filter_map]
  rfl

theorem fits_record (happlied : Applied program start) (hcontext : PlainContext context)
    (hresolves : Resolves program start resolve called) {bindings : Bindings}
    {id : ClassId} {parameters : List Str} {hints : List (Str × PyType)} {fields : List Str}
    {values : List (Str × Value)} {members : Fields} (hreached : Reached program start context pyType)
    (hdefinition : definition pyType = some id) (hkind : (program.classAt id).kind = .dataclass parameters hints fields)
    (hagree : ∀ name ∈ typeVars pyType, Entries.get? name bindings = Entries.get? name context.bindings)
    (hnames : values.map Prod.fst = fields)
    (hmembers : Entries.Related (fun _ value element => Writes value element)
      (Entries.update [] (values.map fun field => (toCamel field.1, field.2))) members)
    (h : ∀ field ∈ values, ∀ member ∈ members, Writes field.2 member.2 → ∀ inner,
      Reached program start inner ((Entries.get? field.1 hints).getD (.atom .any)) →
      inner.bindings = parameters.zip ((typeArgs pyType).map (substitute bindings)) →
      Fits program start resolve called inner ((Entries.get? field.1 hints).getD (.atom .any)) member.2) :
    Fits program start resolve called context pyType (.obj members) := by
  intro outline hdescribes hkeys
  have hresolved := resolveVar_definition context.bindings hdefinition
  have hnamed : isNamed program (resolveVar context.bindings pyType) = true := by
    rw [hresolved]
    unfold isNamed
    rw [hdefinition]
    dsimp only
    rw [hkind]
  have hrule := rule_named hcontext hnamed
  rw [hresolved] at hrule
  have hargs := record_bindings hdefinition (hreached.typeArgs happlied hcontext.bindings hdefinition hrule) hagree
  rw [hdescribes.of_component hrule] at hkeys ⊢
  obtain ⟨blueprint, hblueprint, hmore, htarget⟩ := hresolves _ (hkeys _ (List.mem_singleton_self _))
  have hcontent : ∀ place : Context, content program place (resolveAlias context.bindings pyType) =
      .record ⟨place.roots, place.inModel, parameters.zip (typeArgs (resolveAlias context.bindings pyType))⟩
        (recordProperties hints fields) := by
    intro place
    unfold content
    rw [definition_resolveAlias, hdefinition]
    dsimp only [Option.map_some]
    rw [hkind]
  have htop := hcontent topLevel
  have hplace := hcontent context
  rw [hcontext.roots, hcontext.inModel] at hplace
  obtain ⟨source, hmet, hsource⟩ := hreached
  rw [← rule_of_resolveVar hsource] at hrule
  rw [htop, ← hnames] at hblueprint
  cases hblueprint with
  | @record _ _ described hforall =>
      apply Accepts.reference rfl htarget
      have hrelated := @related_fields _ _ _ _ _ _ (fun outline value => ∀ member ∈ members, Writes value member.2 →
          Accepts resolve (outline.write called) member.2) hforall
        (fun field hfield property hproperty hdescribed member hmember hwritten => by
          have hname : field.1 ∈ fields := hnames ▸ List.mem_map_of_mem hfield
          have hinner := Met.property hmet hrule hplace (List.mem_map_of_mem hname) rfl
          exact h field hfield member hmember hwritten _ ⟨_, hinner, rfl⟩ (by rw [hargs]) property.2 hdescribed
            fun key hkey => hmore key (List.mem_flatMap.mpr ⟨property, hproperty, hkey⟩))
      have hnodup : (Entries.keys members).Nodup := by
        rw [← hmembers.keys_eq]
        exact Entries.nodup_keys_update [] _ List.nodup_nil
      rw [Blueprint.derived_record]
      apply accepts_record
      · intro name schema hget member hmember hname
        subst hname
        rw [Entries.get?_updated_mapValues] at hget
        obtain ⟨outline, houtline, heq⟩ := Option.map_eq_some_iff.mp hget
        cases heq
        obtain ⟨value, haccepts, hwritten⟩ := hrelated.updated.through hmembers hnodup houtline hmember
        exact haccepts member hmember hwritten
      · intro name hname
        obtain ⟨property, hproperty, rfl⟩ := List.mem_map.mp hname
        rw [← hmembers.keys_eq, Entries.mem_keys_update, ← hrelated.keys_eq]
        exact .inr (List.mem_map_of_mem (List.mem_map_of_mem (List.mem_filter.mp hproperty).1))

-- An enum is hoisted, and lists the values of its members.
theorem fits_enum (hcontext : PlainContext context)
    (hresolves : Resolves program start resolve called) {id : ClassId} {name : Str} {scalars : List Scalar}
    {scalar : Scalar}
    (hkind : (∃ values, (program.classAt id).kind = .strEnum values ∧ name = "string" ∧ scalars = values.map .str) ∨
      ∃ values, (program.classAt id).kind = .intEnum values ∧ name = "integer" ∧ scalars = values.map .int)
    (htype : OfType name scalar.toJson) (hmem : scalar ∈ scalars) :
    Fits program start resolve called context (.atom (.cls id)) scalar.toJson := by
  have hnamed : isNamed program (.atom (.cls id)) = true := by
    unfold isNamed definition
    dsimp only
    obtain ⟨values, hkind, -⟩ | ⟨values, hkind, -⟩ := hkind <;> rw [hkind]
  have hcontent : content program topLevel (.atom (.cls id)) = .schema (enumSchema name scalars) := by
    unfold content definition
    dsimp only [Option.map_some]
    obtain ⟨values, hkind, rfl, rfl⟩ | ⟨values, hkind, rfl, rfl⟩ := hkind <;> rw [hkind]
  intro outline hdescribes hkeys
  rw [hdescribes.of_component (rule_named hcontext hnamed)] at hkeys ⊢
  obtain ⟨blueprint, hblueprint, -, htarget⟩ := hresolves _ (hkeys _ (List.mem_singleton_self _))
  have hkey : resolveAlias context.bindings (resolveVar context.bindings (.atom (.cls id))) = .atom (.cls id) := rfl
  rw [hkey, hcontent] at hblueprint
  cases hblueprint
  exact .reference rfl htarget (accepts_enum htype (List.mem_map_of_mem hmem))

omit [UnicodeData] in
theorem rule_plain {id : ClassId} (hdefinition : definition pyType = some id)
    (hkind : (program.classAt id).kind = .plain) : rule program context pyType = .schema [] := by
  have hclass : classRule program context pyType = .schema [] := by
    have hnamed : isNamed program pyType = false := by
      unfold isNamed
      rw [hdefinition]
      dsimp only
      rw [hkind]
    unfold classRule
    rw [hnamed]
    split <;> rfl
  rcases pyType with atom | ⟨base, metadata⟩ | ⟨origin, args⟩
  · cases atom with
    | cls other =>
        cases hdefinition
        unfold rule resolveVar
        dsimp only
        rw [hkind]
        exact hclass
    | none | any | ellipsis | typeVar | primitive | path | literal | other => cases hdefinition
  · cases hdefinition
  · cases origin with
    | cls other => exact hclass
    | union | list | tuple | set | frozenset | dict => cases hdefinition

omit [UnicodeData] in
theorem HasType.none_value {bindings : Bindings} (h : HasType program asWritten bindings (.atom .none) value) :
    value = .none := by
  cases h with
  | none => rfl
  | record hdefinition => cases hdefinition
  | plain _ hdefinition => cases hdefinition

-- A variable that is bound is derived as what it stands for, unless that is a variable again.
theorem fits_bound (hbindings : SimpleBindings context.bindings) {name : Str} {bound : PyType}
    (hget : Entries.get? name context.bindings = some bound)
    (h : typeVars bound = [] → resolveVar context.bindings (.atom (.typeVar name)) = resolveVar context.bindings bound →
      Fits program start resolve called context bound json) :
    Fits program start resolve called context (.atom (.typeVar name)) json := by
  have hresolved : resolveVar context.bindings (.atom (.typeVar name)) = bound := by
    unfold resolveVar
    dsimp only
    rw [hget]
    rfl
  rcases hbindings _ (Entries.mem_of_get? hget) with ⟨other, rfl⟩ | hclosed
  · apply fits_open
    unfold rule
    rw [hresolved]
  · have hsame : resolveVar context.bindings (.atom (.typeVar name)) = resolveVar context.bindings bound := by
      rw [hresolved, resolveVar_closed _ hclosed]
    intro outline hdescribes
    exact h hclosed hsame outline (hdescribes.congr (rule_of_resolveVar hsame))

theorem fits_unbound {name : Str} (hget : Entries.get? name context.bindings = none) :
    Fits program start resolve called context (.atom (.typeVar name)) json := by
  apply fits_open
  unfold rule resolveVar
  dsimp only
  rw [hget]
  rfl

theorem fits_annotated {base : PyType} {metadata : List Metadata}
    (hreached : Reached program start context (.annotated base metadata))
    (h : Reached program start context base → Fits program start resolve called context base json) :
    Fits program start resolve called context (.annotated base metadata) json := by
  by_cases hserializer : metadata.any fun item => item.serializer
  · apply fits_open
    show (if metadata.any (fun item => item.serializer) then _ else _) = _
    rw [if_pos hserializer]
  · have hrule : rule program context (.annotated base metadata) = .within context base .same := by
      show (if metadata.any (fun item => item.serializer) then _ else _) = _
      rw [if_neg hserializer]
    intro outline hdescribes hkeys
    obtain ⟨rest, hrest, rfl⟩ := hdescribes.of_within hrule
    exact h (hreached.within hrule) rest hrest hkeys

theorem fits_anyDict (members : Fields) : Fits program start resolve called context (.alias .dict []) (.obj members) :=
  fits_schema rfl (accepts_map fun member _ => accepts_open member.2)

theorem fits_dict {key pyType : PyType} {members : Fields}
    (h : ∀ member ∈ members, Fits program start resolve called context pyType member.2) :
    Fits program start resolve called context (.alias .dict [key, pyType]) (.obj members) := by
  intro outline hdescribes hoisted
  obtain ⟨rest, hrest, rfl⟩ := hdescribes.of_within rfl
  exact accepts_map fun member hmember => h member hmember rest hrest hoisted

omit [UnicodeData] in
-- What an alias asks of its context, it asks for each of its arguments.
theorem agree_arg {origin : Origin} {args : List PyType} {bindings others : Bindings}
    (h : ∀ name ∈ typeVars (.alias origin args), Entries.get? name bindings = Entries.get? name others) {arg : PyType}
    (harg : arg ∈ args) : ∀ name ∈ typeVars arg, Entries.get? name bindings = Entries.get? name others :=
  fun name hname => h name (mem_argTypeVars.mpr ⟨arg, harg, hname⟩)

-- Each item of a tuple writes what its first item could have written.
theorem written_tuple {bindings : Bindings} {first : PyType} {rest : List PyType} {items : List Value}
    {elements : List Json} (htidy : Tidy program asWritten bindings (.alias .tuple (first :: rest)))
    (hlength : items.length = (first :: rest).length)
    (hitems : ∀ entry ∈ (first :: rest).zip items, HasType program asWritten bindings entry.1 entry.2)
    (hwrites : List.Forall₂ Writes items elements) :
    ∀ element ∈ elements, ∃ item, HasType program asWritten bindings first item ∧ Writes item element := by
  intro element helement
  obtain ⟨item, hitem, hwritten⟩ := exists_of_mem_right hwrites helement
  obtain ⟨index, hindex, rfl⟩ := List.mem_iff_getElem.mp hitem
  have hzip : index < ((first :: rest).zip items).length := by
    rw [List.length_zip]
    omega
  have hentry := List.getElem_mem hzip
  rw [List.getElem_zip] at hentry
  have hmem := (List.of_mem_zip hentry).1
  have htyped := hitems _ hentry
  generalize (first :: rest)[index] = pyType at hmem htyped
  rcases List.mem_cons.mp hmem with rfl | hrest
  · exact ⟨_, htyped, hwritten⟩
  · exact htidy _ hrest _ _ htyped hwritten

-- What is written of a value of a type is accepted by what the type is derived to. The induction
-- is on the size of what is written; what is written again of the same value goes along the typing.
theorem HasType.fits (hregular : Regular program asWritten start)
    (hstart : ∀ context pyType, start context pyType → context = topLevel)
    (hresolves : Resolves program start resolve called) {bindings : Bindings}
    (h : HasType program asWritten bindings pyType value) (hwrites : Writes value json)
    (hreached : Reached program start context pyType)
    (hagree : ∀ name ∈ typeVars pyType, Entries.get? name bindings = Entries.get? name context.bindings) :
    Fits program start resolve called context pyType json := by
  induction hsize : sizeOf json using Nat.strong_induction_on generalizing bindings pyType value json context with
  | _ size below =>
  subst hsize
  have hcontext : PlainContext context := by
    obtain ⟨source, hmet, -⟩ := hreached
    exact hregular.plain hstart hmet
  induction h generalizing context with
  | any | none | other => exact fits_open rfl
  | @bound bindings name bound value hget _ ih =>
      rw [hagree name (List.mem_singleton_self _)] at hget
      apply fits_bound hcontext.bindings hget
      intro hclosed hsame
      obtain ⟨source, hmet, hsource⟩ := hreached
      have hnone : ∀ name ∈ typeVars bound, Entries.get? name [] = Entries.get? name context.bindings := by
        rw [hclosed]
        nofun
      exact ih hwrites ⟨source, hmet, hsource.trans hsame⟩ hnone hcontext
  | @unbound bindings name value hget =>
      rw [hagree name (List.mem_singleton_self _)] at hget
      exact fits_unbound hget
  | primitive h => exact fits_schema rfl (accepts_primitive h hwrites)
  | path name written =>
      apply fits_schema rfl
      rw [writes_text hwrites]
      exact accepts_typed (.string _)
  | literal hmem h => exact fits_schema rfl (accepts_literal hmem h hwrites)
  | @strEnum bindings id values text hkind hmem =>
      rw [@writes_scalar _ (.str text) _ hwrites]
      exact fits_enum hcontext hresolves (.inl ⟨values, hkind, rfl, rfl⟩) (.string text) (List.mem_map_of_mem hmem)
  | @intEnum bindings id values n hkind hmem =>
      rw [@writes_scalar _ (.int n) _ hwrites]
      exact fits_enum hcontext hresolves (.inr ⟨values, hkind, rfl, rfl⟩) (.integer n) (List.mem_map_of_mem hmem)
  | @record bindings pyType id parameters hints fields values hdefinition hkind hnames h _ =>
      obtain ⟨members, rfl, hmembers⟩ := writes_dataclass hwrites
      apply fits_record hregular.applied hcontext hresolves hreached hdefinition hkind hagree hnames hmembers
      intro field hfield member hmember hwritten inner hinner hbindings
      have htyped := h field hfield
      unfold fieldType at htyped
      cases hget : Entries.get? field.1 hints with
      | none => exact fits_open rfl
      | some hint =>
          rw [hget] at htyped hinner
          exact below _ (sizeOf_member hmember) htyped hwritten hinner (fun name _ => by rw [hbindings]) rfl
  | plain value hdefinition hkind => exact fits_open (rule_plain hdefinition hkind)
  | annotated _ ih => exact fits_annotated hreached fun hbase => ih hwrites hbase hagree hcontext
  | @union bindings name args arg value harg h ih =>
      apply fits_union hregular hcontext hresolves hreached harg
      · intro hnone
        subst hnone
        rw [h.none_value] at hwrites
        exact writes_none hwrites
      · exact fun hmember => ih hwrites hmember (agree_arg hagree harg) hcontext
  | list h _ | set h _ | frozenset h _ =>
      obtain ⟨elements, rfl, helements⟩ := writes_array (by rw [toJsonable]) hwrites
      apply fits_array rfl
      intro arg rest hfilter element helement
      have harg := (mem_of_filter hfilter).1
      obtain ⟨item, hitem, hwritten⟩ := exists_of_mem_right helements helement
      exact below _ (sizeOf_element helement) (h arg harg item hitem) hwritten
        (hreached.within (arrayRule_cons hfilter)) (agree_arg hagree harg) rfl
  | @anyTuple bindings items =>
      obtain ⟨elements, rfl, -⟩ := writes_array (by rw [toJsonable]) hwrites
      exact fits_schema rfl (accepts_array fun element _ => accepts_open element)
  | @variadic bindings first items h _ =>
      obtain ⟨elements, rfl, helements⟩ := writes_array (by rw [toJsonable]) hwrites
      apply fits_array rfl
      intro arg rest hfilter element helement
      obtain ⟨item, hitem, hwritten⟩ := exists_of_mem_right helements helement
      have hsame : arg = first := by
        obtain ⟨hmem, hplain⟩ := mem_of_filter hfilter
        rcases List.mem_cons.mp hmem with rfl | hellipsis
        · rfl
        · simp [List.mem_singleton.mp hellipsis] at hplain
      subst hsame
      exact below _ (sizeOf_element helement) (h item hitem) hwritten (hreached.within (arrayRule_cons hfilter))
        (agree_arg hagree List.mem_cons_self) rfl
  | @tuple bindings args items hlength hargs h _ =>
      obtain ⟨elements, rfl, helements⟩ := writes_array (by rw [toJsonable]) hwrites
      apply fits_array rfl
      intro first rest hfilter element helement
      have hwithin := hreached.within (arrayRule_cons hfilter)
      have hall : args.filter (fun arg => arg ≠ .atom .ellipsis) = args := by
        apply List.filter_eq_self.mpr
        intro arg harg
        apply decide_eq_true
        rintro rfl
        exact hargs harg
      rw [hall] at hfilter
      subst hfilter
      obtain ⟨source, hmet, hsource⟩ := hreached
      have htidy := hregular.tidy context source hmet
      rw [hsource] at htidy
      have hitems : ∀ entry ∈ (first :: rest).zip items, HasType program asWritten context.bindings entry.1 entry.2 :=
        fun entry hentry => (h entry hentry).congr (agree_arg hagree (List.of_mem_zip hentry).1)
      obtain ⟨item, htyped, hwritten⟩ := written_tuple htidy hlength hitems helements element helement
      exact below _ (sizeOf_element helement) htyped hwritten hwithin (fun _ _ => rfl) rfl
  | anyDict entries =>
      obtain ⟨members, rfl, -⟩ := writes_dict hwrites
      exact fits_anyDict members
  | @dict bindings key pyType entries _ h _ _ =>
      obtain ⟨members, rfl, hmembers⟩ := writes_dict hwrites
      apply fits_dict
      intro member hmember
      obtain ⟨entry, hentry, hwritten⟩ := exists_of_mem_right hmembers hmember
      exact below _ (sizeOf_member hmember) (h entry hentry) hwritten (hreached.within rfl)
        (agree_arg hagree (List.mem_cons_of_mem _ List.mem_cons_self)) rfl

end Acceptance

end Benzene.Contract.Derivation
