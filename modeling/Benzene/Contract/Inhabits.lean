import Benzene.Contract.Derivation

namespace Benzene.Contract.Derivation

open Benzene.Data
open Benzene.Core (Value toJsonable toJsonableItems toJsonableFields toJsonableEntries asJson asJsonItems asJsonEntries
  keyText toCamel)

section Variables

mutual

def substitute (bindings : Bindings) : PyType → PyType
  | .atom (.typeVar name) => (Entries.get? name bindings).getD (.atom (.typeVar name))
  | .atom atom => .atom atom
  | .annotated base metadata => .annotated (substitute bindings base) metadata
  | .alias origin args => .alias origin (substituteArgs bindings args)

def substituteArgs (bindings : Bindings) : List PyType → List PyType
  | [] => []
  | arg :: rest => substitute bindings arg :: substituteArgs bindings rest

end

mutual

def typeVars : PyType → List Str
  | .atom (.typeVar name) => [name]
  | .atom _ => []
  | .annotated base _ => typeVars base
  | .alias _ args => argTypeVars args

def argTypeVars : List PyType → List Str
  | [] => []
  | arg :: rest => typeVars arg ++ argTypeVars rest

end

theorem mem_argTypeVars {name : Str} {args : List PyType} :
    name ∈ argTypeVars args ↔ ∃ arg ∈ args, name ∈ typeVars arg := by
  induction args with
  | nil => simp [argTypeVars]
  | cons arg rest ih => simp [argTypeVars, ih]

mutual

theorem substitute_closed (bindings : Bindings) {pyType : PyType} (h : typeVars pyType = []) :
    substitute bindings pyType = pyType := by
  rcases pyType with atom | ⟨base, metadata⟩ | ⟨origin, args⟩
  · cases atom with
    | typeVar name => cases h
    | none | any | ellipsis | primitive | path | literal | cls | other => rfl
  · rw [typeVars] at h
    rw [substitute, substitute_closed bindings h]
  · rw [typeVars] at h
    rw [substitute, substituteArgs_closed bindings h]

theorem substituteArgs_closed (bindings : Bindings) {args : List PyType} (h : argTypeVars args = []) :
    substituteArgs bindings args = args := by
  cases args with
  | nil => rfl
  | cons arg rest =>
      rw [argTypeVars, List.append_eq_nil_iff] at h
      rw [substituteArgs, substitute_closed bindings h.1, substituteArgs_closed bindings h.2]

end

mutual

theorem substitute_congr {bindings other : Bindings} {pyType : PyType}
    (h : ∀ name ∈ typeVars pyType, Entries.get? name bindings = Entries.get? name other) :
    substitute bindings pyType = substitute other pyType := by
  rcases pyType with atom | ⟨base, metadata⟩ | ⟨origin, args⟩
  · cases atom with
    | typeVar name =>
        exact congrArg (fun bound : Option PyType => bound.getD (.atom (.typeVar name)))
          (h name (List.mem_singleton_self name))
    | none | any | ellipsis | primitive | path | literal | cls | other => rfl
  · exact congrArg (fun base => PyType.annotated base metadata) (substitute_congr h)
  · exact congrArg (PyType.alias origin) (substituteArgs_congr h)

theorem substituteArgs_congr {bindings other : Bindings} {args : List PyType}
    (h : ∀ name ∈ argTypeVars args, Entries.get? name bindings = Entries.get? name other) :
    substituteArgs bindings args = substituteArgs other args := by
  cases args with
  | nil => rfl
  | cons arg rest =>
      have harg := substitute_congr fun name hname => h name (List.mem_append_left _ hname)
      have hrest := substituteArgs_congr fun name hname => h name (List.mem_append_right _ hname)
      exact congrArg₂ List.cons harg hrest

end

-- A type variable, or a type with none.
def Simple (pyType : PyType) : Prop := (∃ name, pyType = .atom (.typeVar name)) ∨ typeVars pyType = []

def resolveArg (bindings : Bindings) : PyType → PyType
  | .atom (.typeVar name) => (Entries.get? name bindings).getD (.atom (.typeVar name))
  | arg => arg

theorem resolveArg_nil (arg : PyType) : resolveArg [] arg = arg := by
  unfold resolveArg
  split <;> rfl

theorem resolveAlias_alias (bindings : Bindings) (origin : Origin) (args : List PyType) :
    resolveAlias bindings (.alias origin args) = .alias origin (args.map (resolveArg bindings)) := by
  unfold resolveAlias
  split
  · rename_i heq
    cases heq
    split
    · rename_i hempty
      rcases hempty with rfl | rfl
      · rfl
      · rw [List.map_congr_left fun arg _ => resolveArg_nil arg, List.map_id']
    · congr 1
      apply List.map_congr_left
      intro arg _
      rcases arg with atom | ⟨base, metadata⟩ | ⟨other, rest⟩
      · cases atom <;> rfl
      · rfl
      · rfl
  · rename_i hne
    exact absurd rfl (hne _ _)

-- A simple argument stands for what its variables stand for.
theorem resolveArg_eq {arg : PyType} {bindings other : Bindings} (h : Simple arg)
    (hagree : ∀ name ∈ typeVars arg, Entries.get? name other = Entries.get? name bindings) :
    resolveArg bindings arg = substitute other arg := by
  rcases h with ⟨name, rfl⟩ | hclosed
  · show (Entries.get? name bindings).getD _ = (Entries.get? name other).getD _
    rw [hagree name (List.mem_singleton_self _)]
  · rw [substitute_closed other hclosed]
    unfold resolveArg
    split
    · cases hclosed
    · rfl

end Variables

section Typing

inductive OfPrimitive : Primitive → Value → Prop
  | bool (b : Bool) : OfPrimitive .bool (.bool b)
  | int (n : Int) : OfPrimitive .int (.int n)
  | float (x : PyFloat) : OfPrimitive .float (.float x)
  | whole (n : Int) : OfPrimitive .float (.int n)
  | str (text : Str) : OfPrimitive .str (.str text)
  | bytes (data : List UInt8) : OfPrimitive .bytes (.bytes data)
  | datetime (written : Str) : OfPrimitive .datetime (.text .datetime written)
  | date (written : Str) : OfPrimitive .date (.text .date written)
  | time (written : Str) : OfPrimitive .time (.text .time written)
  | timedelta (microseconds : Int) : OfPrimitive .timedelta (.timedelta microseconds)
  | uuid (written : Str) : OfPrimitive .uuid (.text .uuid written)
  | decimal (value : PyFloat) : OfPrimitive .decimal (.decimal value)

def scalarValue : Scalar → Value
  | .bool b => .bool b
  | .int n => .int n
  | .str text => .str text

inductive OfLiteral : LiteralValue → Value → Prop
  | none : OfLiteral .none .none
  | value (scalar : Scalar) : OfLiteral (.value scalar) (scalarValue scalar)
  | member (scalar : Scalar) : OfLiteral (.member scalar) (scalarValue scalar)
  | plainMember (value : Value) : OfLiteral .plainMember value
  | bytes (data : List UInt8) : OfLiteral (.bytes data) (.bytes data)

-- What a field of a class holds: what its annotation resolves to, or else the annotation as it is
-- written.
def fieldType (asWritten : ClassId → Str → PyType) (id : ClassId) (hints : List (Str × PyType)) (name : Str) :
    PyType :=
  (Entries.get? name hints).getD (asWritten id name)

variable (program : Program) (asWritten : ClassId → Str → PyType)

-- The values of a type, where its typeVars stand for types. A type that says nothing of its
-- values has all of them.
inductive HasType : Bindings → PyType → Value → Prop
  | any {bindings : Bindings} (value : Value) : HasType bindings (.atom .any) value
  | none {bindings : Bindings} : HasType bindings (.atom .none) .none
  | bound {bindings : Bindings} {name : Str} {pyType : PyType} {value : Value}
      (hget : Entries.get? name bindings = some pyType) (h : HasType [] pyType value) :
      HasType bindings (.atom (.typeVar name)) value
  | unbound {bindings : Bindings} {name : Str} (value : Value) (hget : Entries.get? name bindings = Option.none) :
      HasType bindings (.atom (.typeVar name)) value
  | other {bindings : Bindings} (name : Str) (value : Value) : HasType bindings (.atom (.other name)) value
  | primitive {bindings : Bindings} {primitive : Primitive} {value : Value} (h : OfPrimitive primitive value) :
      HasType bindings (.atom (.primitive primitive)) value
  | path {bindings : Bindings} (name written : Str) :
      HasType bindings (.atom (.path name)) (.text .path written)
  | literal {bindings : Bindings} {values : List LiteralValue} {literal : LiteralValue} {value : Value}
      (hmem : literal ∈ values) (h : OfLiteral literal value) : HasType bindings (.atom (.literal values)) value
  | strEnum {bindings : Bindings} {id : ClassId} {values : List Str} {text : Str}
      (hkind : (program.classAt id).kind = .strEnum values) (hmem : text ∈ values) :
      HasType bindings (.atom (.cls id)) (.str text)
  | intEnum {bindings : Bindings} {id : ClassId} {values : List Int} {n : Int}
      (hkind : (program.classAt id).kind = .intEnum values) (hmem : n ∈ values) :
      HasType bindings (.atom (.cls id)) (.int n)
  | record {bindings : Bindings} {pyType : PyType} {id : ClassId} {parameters : List Str} {hints : List (Str × PyType)}
      {fields : List Str} {values : List (Str × Value)} (hdefinition : definition pyType = some id)
      (hkind : (program.classAt id).kind = .dataclass parameters hints fields) (hnames : values.map Prod.fst = fields)
      (h : ∀ field ∈ values, HasType (parameters.zip ((typeArgs pyType).map (substitute bindings)))
        (fieldType asWritten id hints field.1) field.2) : HasType bindings pyType (.dataclass values)
  | plain {bindings : Bindings} {pyType : PyType} {id : ClassId} (value : Value)
      (hdefinition : definition pyType = some id)
      (hkind : (program.classAt id).kind = .plain) : HasType bindings pyType value
  | annotated {bindings : Bindings} {base : PyType} {metadata : List Metadata} {value : Value}
      (h : HasType bindings base value) : HasType bindings (.annotated base metadata) value
  | union {bindings : Bindings} {name : Str} {args : List PyType} {arg : PyType} {value : Value} (harg : arg ∈ args)
      (h : HasType bindings arg value) : HasType bindings (.alias (.union name) args) value
  | list {bindings : Bindings} {args : List PyType} {items : List Value}
      (h : ∀ arg ∈ args, ∀ item ∈ items, HasType bindings arg item) :
      HasType bindings (.alias .list args) (.list items)
  | set {bindings : Bindings} {args : List PyType} {items : List Value}
      (h : ∀ arg ∈ args, ∀ item ∈ items, HasType bindings arg item) :
      HasType bindings (.alias .set args) (.set items)
  | frozenset {bindings : Bindings} {args : List PyType} {items : List Value}
      (h : ∀ arg ∈ args, ∀ item ∈ items, HasType bindings arg item) :
      HasType bindings (.alias .frozenset args) (.set items)
  | anyTuple {bindings : Bindings} (items : List Value) : HasType bindings (.alias .tuple []) (.tuple items)
  | variadic {bindings : Bindings} {arg : PyType} {items : List Value}
      (h : ∀ item ∈ items, HasType bindings arg item) :
      HasType bindings (.alias .tuple [arg, .atom .ellipsis]) (.tuple items)
  | tuple {bindings : Bindings} {args : List PyType} {items : List Value} (hlength : items.length = args.length)
      (hargs : .atom .ellipsis ∉ args) (h : ∀ entry ∈ args.zip items, HasType bindings entry.1 entry.2) :
      HasType bindings (.alias .tuple args) (.tuple items)
  | anyDict {bindings : Bindings} (entries : List (Value × Value)) :
      HasType bindings (.alias .dict []) (.dict entries)
  | dict {bindings : Bindings} {key pyType : PyType} {entries : List (Value × Value)}
      (hkeys : ∀ entry ∈ entries, HasType bindings key entry.1)
      (hvalues : ∀ entry ∈ entries, HasType bindings pyType entry.2) :
      HasType bindings (.alias .dict [key, pyType]) (.dict entries)

variable {program asWritten}

theorem mem_typeVars_typeArgs {pyType arg : PyType} {name : Str} (harg : arg ∈ typeArgs pyType)
    (hname : name ∈ typeVars arg) : name ∈ typeVars pyType := by
  rcases pyType with atom | ⟨base, metadata⟩ | ⟨origin, args⟩
  · cases harg
  · cases harg
  · exact mem_argTypeVars.mpr ⟨arg, harg, hname⟩

-- Only what a type's own variables stand for makes a difference to its values.
theorem HasType.congr {bindings other : Bindings} {pyType : PyType} {value : Value}
    (h : HasType program asWritten bindings pyType value)
    (hagree : ∀ name ∈ typeVars pyType, Entries.get? name bindings = Entries.get? name other) :
    HasType program asWritten other pyType value := by
  have hargs : ∀ {bindings : Bindings} {origin : Origin} {args : List PyType},
      (∀ name ∈ typeVars (.alias origin args), Entries.get? name bindings = Entries.get? name other) → ∀ arg ∈ args,
        ∀ name ∈ typeVars arg, Entries.get? name bindings = Entries.get? name other :=
    fun hagree arg harg name hname => hagree name (mem_argTypeVars.mpr ⟨arg, harg, hname⟩)
  induction h with
  | any value => exact .any value
  | none => exact .none
  | bound hget h _ =>
      rw [hagree _ (List.mem_singleton_self _)] at hget
      exact .bound hget h
  | unbound value hget =>
      rw [hagree _ (List.mem_singleton_self _)] at hget
      exact .unbound value hget
  | other name value => exact .other name value
  | primitive h => exact .primitive h
  | path name written => exact .path name written
  | literal hmem h => exact .literal hmem h
  | strEnum hkind hmem => exact .strEnum hkind hmem
  | intEnum hkind hmem => exact .intEnum hkind hmem
  | @record bindings pyType id parameters hints fields values hdefinition hkind hnames h _ =>
      refine .record hdefinition hkind hnames ?_
      have hsame : (typeArgs pyType).map (substitute other) = (typeArgs pyType).map (substitute bindings) := by
        apply List.map_congr_left
        intro arg harg
        exact (substitute_congr fun name hname => hagree name (mem_typeVars_typeArgs harg hname)).symm
      rw [hsame]
      exact h
  | plain value hdefinition hkind => exact .plain value hdefinition hkind
  | annotated _ ih => exact .annotated (ih hagree)
  | union harg _ ih => exact .union harg (ih (hargs hagree _ harg))
  | list _ ih => exact .list fun arg harg item hitem => ih arg harg item hitem (hargs hagree arg harg)
  | set _ ih => exact .set fun arg harg item hitem => ih arg harg item hitem (hargs hagree arg harg)
  | frozenset _ ih => exact .frozenset fun arg harg item hitem => ih arg harg item hitem (hargs hagree arg harg)
  | anyTuple items => exact .anyTuple items
  | variadic _ ih => exact .variadic fun item hitem => ih item hitem (hargs hagree _ List.mem_cons_self)
  | tuple hlength hellipsis _ ih =>
      exact .tuple hlength hellipsis fun entry hentry => ih entry hentry (hargs hagree _ (List.of_mem_zip hentry).1)
  | anyDict entries => exact .anyDict entries
  | dict _ _ ihkeys ihvalues =>
      exact .dict (fun entry hentry => ihkeys entry hentry (hargs hagree _ List.mem_cons_self))
        fun entry hentry => ihvalues entry hentry (hargs hagree _ (List.mem_cons_of_mem _ List.mem_cons_self))

end Typing

section Writing

variable [UnicodeData]

-- What `json.dumps(to_jsonable(value))` writes.
def Writes (value : Value) (json : Json) : Prop := ∃ written, toJsonable value = .ok written ∧ asJson written = .ok json

theorem writes_items {items ws : List Value} {elements : List Json} (hitems : toJsonableItems items = .ok ws)
    (helements : asJsonItems ws = .ok elements) : List.Forall₂ Writes items elements := by
  induction items generalizing ws elements with
  | nil =>
      cases hitems
      cases helements
      exact .nil
  | cons item rest ih =>
      obtain ⟨first, hfirst, hitems⟩ := Except.bind_eq_ok.mp hitems
      obtain ⟨others, hothers, hitems⟩ := Except.bind_eq_ok.mp hitems
      cases hitems
      obtain ⟨element, helement, helements⟩ := Except.bind_eq_ok.mp helements
      obtain ⟨more, hmore, helements⟩ := Except.bind_eq_ok.mp helements
      cases helements
      exact .cons ⟨first, hfirst, helement⟩ (ih hothers hmore)

theorem writes_array {value : Value} {items : List Value} {json : Json}
    (hvalue : toJsonable value = (do return .list (← toJsonableItems items))) (h : Writes value json) :
    ∃ elements, json = .arr elements ∧ List.Forall₂ Writes items elements := by
  obtain ⟨written, h, hjson⟩ := h
  rw [hvalue] at h
  obtain ⟨ws, hitems, h⟩ := Except.bind_eq_ok.mp h
  cases h
  obtain ⟨elements, helements, hjson⟩ := Except.bind_eq_ok.mp hjson
  cases hjson
  exact ⟨elements, rfl, writes_items hitems helements⟩

theorem writes_entries {entries ws : List (Value × Value)} {members : Fields}
    (hentries : toJsonableEntries entries = .ok ws) (hmembers : asJsonEntries ws = .ok members) :
    List.Forall₂ (fun entry member => Writes entry.2 member.2) entries members := by
  induction entries generalizing ws members with
  | nil =>
      cases hentries
      cases hmembers
      exact .nil
  | cons entry rest ih =>
      obtain ⟨key, value⟩ := entry
      obtain ⟨first, hfirst, hentries⟩ := Except.bind_eq_ok.mp hentries
      obtain ⟨others, hothers, hentries⟩ := Except.bind_eq_ok.mp hentries
      cases hentries
      obtain ⟨text, -, hmembers⟩ := Except.bind_eq_ok.mp hmembers
      obtain ⟨element, helement, hmembers⟩ := Except.bind_eq_ok.mp hmembers
      obtain ⟨more, hmore, hmembers⟩ := Except.bind_eq_ok.mp hmembers
      cases hmembers
      exact .cons ⟨first, hfirst, helement⟩ (ih hothers hmore)

theorem writes_dict {entries : List (Value × Value)} {json : Json} (h : Writes (.dict entries) json) :
    ∃ members, json = .obj members ∧ List.Forall₂ (fun entry member => Writes entry.2 member.2) entries members := by
  obtain ⟨written, h, hjson⟩ := h
  rw [toJsonable] at h
  obtain ⟨ws, hentries, h⟩ := Except.bind_eq_ok.mp h
  cases h
  obtain ⟨members, hmembers, hjson⟩ := Except.bind_eq_ok.mp hjson
  cases hjson
  exact ⟨members, rfl, writes_entries hentries hmembers⟩

theorem writes_fields {values ws : List (Str × Value)} (hfields : toJsonableFields values = .ok ws) :
    Entries.Related (fun _ value written => toJsonable value = .ok written)
      (values.map fun field => (toCamel field.1, field.2)) ws := by
  induction values generalizing ws with
  | nil =>
      cases hfields
      exact .nil
  | cons field rest ih =>
      obtain ⟨name, value⟩ := field
      obtain ⟨first, hfirst, hfields⟩ := Except.bind_eq_ok.mp hfields
      obtain ⟨others, hothers, hfields⟩ := Except.bind_eq_ok.mp hfields
      cases hfields
      exact .cons ⟨rfl, hfirst⟩ (ih hothers)

theorem writes_members {values ws : List (Str × Value)} {members : Fields}
    (hvalues : Entries.Related (fun _ value written => toJsonable value = .ok written) values ws)
    (hmembers : asJsonEntries (ws.map fun entry => (.str entry.1, entry.2)) = .ok members) :
    Entries.Related (fun _ value element => Writes value element) values members := by
  induction hvalues generalizing members with
  | nil =>
      cases hmembers
      exact .nil
  | cons hfirst _ ih =>
      obtain ⟨text, htext, hmembers⟩ := Except.bind_eq_ok.mp hmembers
      obtain ⟨element, helement, hmembers⟩ := Except.bind_eq_ok.mp hmembers
      obtain ⟨more, hmore, hmembers⟩ := Except.bind_eq_ok.mp hmembers
      cases htext
      cases hmembers
      exact .cons ⟨hfirst.1, _, hfirst.2, helement⟩ (ih hmore)

-- Where two fields have one property, the later one is written.
theorem writes_dataclass {values : List (Str × Value)} {json : Json} (h : Writes (.dataclass values) json) :
    ∃ members, json = .obj members ∧ Entries.Related (fun _ value element => Writes value element)
      (Entries.update [] (values.map fun field => (toCamel field.1, field.2))) members := by
  obtain ⟨written, h, hjson⟩ := h
  rw [toJsonable] at h
  obtain ⟨ws, hfields, h⟩ := Except.bind_eq_ok.mp h
  cases h
  obtain ⟨members, hmembers, hjson⟩ := Except.bind_eq_ok.mp hjson
  cases hjson
  exact ⟨members, rfl, writes_members (writes_fields hfields).updated hmembers⟩

theorem writes_scalar {scalar : Scalar} {json : Json} (h : Writes (scalarValue scalar) json) :
    json = scalar.toJson := by
  obtain ⟨written, h, hjson⟩ := h
  cases scalar with
  | bool | int | str =>
      rw [scalarValue, toJsonable] at h
      · cases h
        cases hjson
        rfl
      all_goals simp

end Writing

end Benzene.Contract.Derivation
