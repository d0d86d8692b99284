import Benzene.Contract.Termination

namespace Benzene.Contract.Derivation

open Benzene.Data

section Substitution

def isUnion : PyType → Bool
  | .alias (.union _) _ => true
  | _ => false

def members : PyType → List PyType
  | .alias (.union _) args => args
  | pyType => [pyType]

-- A union as `typing` builds it: of the members of its members, each of them once. A
-- union of one member is that member.
def unionOf (name : Str) (args : List PyType) : PyType :=
  match distinct (args.flatMap members) with
  | [arg] => arg
  | args => .alias (.union name) args

mutual

-- A type with its type variables replaced, as `Page[T][Order]` is.
def instantiate (bindings : Bindings) : PyType → PyType
  | .atom (.typeVar name) => (Entries.get? name bindings).getD (.atom (.typeVar name))
  | .atom atom => .atom atom
  | .annotated base metadata => .annotated (instantiate bindings base) metadata
  | .alias (.union name) args =>
      if argTypeVars args = [] then .alias (.union name) args else unionOf name (instantiateArgs bindings args)
  | .alias origin args => .alias origin (instantiateArgs bindings args)

def instantiateArgs (bindings : Bindings) : List PyType → List PyType
  | [] => []
  | arg :: rest => instantiate bindings arg :: instantiateArgs bindings rest

end

mutual

-- `get_type_hints` leaves out what a type is annotated with.
def stripped : PyType → PyType
  | .atom atom => .atom atom
  | .annotated base _ => stripped base
  | .alias origin args => .alias origin (strippedArgs args)

def strippedArgs : List PyType → List PyType
  | [] => []
  | arg :: rest => stripped arg :: strippedArgs rest

end

theorem instantiateArgs_eq (bindings : Bindings) (args : List PyType) :
    instantiateArgs bindings args = args.map (instantiate bindings) := by
  induction args with
  | nil => rfl
  | cons arg rest ih => rw [instantiateArgs, ih, List.map_cons]

theorem strippedArgs_eq (args : List PyType) : strippedArgs args = args.map stripped := by
  induction args with
  | nil => rfl
  | cons arg rest ih => rw [strippedArgs, ih, List.map_cons]

theorem instantiate_closed (bindings : Bindings) {pyType : PyType} (h : typeVars pyType = []) :
    instantiate bindings pyType = pyType := by
  induction pyType using PyType.parts_induction with
  | h pyType ih =>
      rcases pyType with atom | ⟨base, metadata⟩ | ⟨origin, args⟩
      · cases atom with
        | typeVar name => cases h
        | none | any | ellipsis | primitive | path | literal | cls | other => rfl
      · rw [instantiate, ih base .base h]
      · have hargs : instantiateArgs bindings args = args := by
          rw [instantiateArgs_eq, List.map_congr_left fun arg harg => ih arg (.arg harg) (Part.closed (.arg harg) h)]
          exact List.map_id' args
        cases origin with
        | union name =>
            change argTypeVars args = [] at h
            rw [instantiate, if_pos h]
        | list | tuple | set | frozenset | dict | cls =>
            rw [instantiate, hargs]
            nofun

-- What may stand for a type variable: no `...`, and nothing annotated, which the hints
-- of a dataclass are not; a union has more than one member, each of them once.
structure Argument (pyType : PyType) : Prop where
  ellipsis : pyType ≠ .atom .ellipsis
  plain : stripped pyType = pyType
  union : ∀ name args, pyType = .alias (.union name) args → args.Nodup ∧ 2 ≤ args.length

def collects : Origin → Bool
  | .list | .tuple | .set | .frozenset | .dict => true
  | .union _ | .cls _ => false

-- The types of a generic dataclass's fields: a type without variables, a type variable, a
-- collection, an optional type, and a generic class applied to such types.
inductive FieldType : PyType → Prop
  | closed {pyType : PyType} (h : typeVars pyType = []) : FieldType pyType
  | typeVar (name : Str) : FieldType (.atom (.typeVar name))
  | collection {origin : Origin} {args : List PyType} (horigin : collects origin = true)
      (h : ∀ arg ∈ args, FieldType arg) : FieldType (.alias origin args)
  | optional {name : Str} {args : List PyType} {arg : PyType}
      (hargs : args = [arg, .atom .none] ∨ args = [.atom .none, arg]) (hunion : isUnion arg = false)
      (h : FieldType arg) : FieldType (.alias (.union name) args)
  | generic {id : ClassId} {args : List PyType} (h : ∀ arg ∈ args, FieldType arg) : FieldType (.alias (.cls id) args)

end Substitution

section Rules

variable {program : Program} {context : Context} {pyType : PyType}

-- The same place, with no type variables bound.
def Context.bare (context : Context) : Context := ⟨context.roots, context.inModel, []⟩

def Rule.bare : Rule → Rule
  | .within inner other wrap => .within inner.bare other wrap
  | rule => rule

theorem resolveArg_closed (bindings : Bindings) (h : typeVars pyType = []) : resolveArg bindings pyType = pyType := by
  unfold resolveArg
  split
  · cases h
  · rfl

theorem resolveAlias_closed (bindings : Bindings) (h : typeVars pyType = []) :
    resolveAlias bindings pyType = pyType := by
  rcases pyType with atom | ⟨base, metadata⟩ | ⟨origin, args⟩
  · rfl
  · rfl
  · rw [resolveAlias_alias, List.map_congr_left fun arg harg => resolveArg_closed bindings (Part.closed (.arg harg) h),
      List.map_id']

theorem resolveAlias_nil (pyType : PyType) : resolveAlias [] pyType = pyType := by
  rcases pyType with atom | ⟨base, metadata⟩ | ⟨origin, args⟩
  · rfl
  · rfl
  · rw [resolveAlias_alias, List.map_congr_left fun arg _ => resolveArg_nil arg, List.map_id']

theorem refType_closed (bindings : Bindings) (h : typeVars pyType = []) :
    refType program bindings pyType = refType program [] pyType := by
  unfold refType
  rw [resolveVar_closed bindings h, resolveVar_closed [] h]

theorem classRule_bare (h : typeVars pyType = []) :
    classRule program context.bare pyType = (classRule program context pyType).bare := by
  unfold classRule
  rw [resolveAlias_closed _ h, resolveAlias_closed _ h]
  show (if context.inModel && isStdlibDataclass program pyType then _ else _) = _
  split
  · rfl
  · split <;> rfl

-- A type without variables is derived alike whatever they stand for.
theorem rule_bare (h : typeVars pyType = []) :
    rule program context.bare pyType = (rule program context pyType).bare := by
  unfold rule
  rw [resolveVar_closed _ h, resolveVar_closed _ h]
  rcases pyType with atom | ⟨base, metadata⟩ | ⟨origin, args⟩
  · cases atom with
    | cls id =>
        dsimp only
        cases hkind : (program.classAt id).kind with
        | rootModel root serialized =>
            dsimp only [rootModelRule]
            split
            · show (if id ∈ context.roots then _ else _) = _
              split <;> rfl
            · rfl
        | strEnum | intEnum | dataclass | model | plain => exact classRule_bare h
    | none | any | ellipsis | typeVar | primitive | path | literal | other => rfl
  · dsimp only
    split <;> rfl
  · cases origin with
    | cls id => exact classRule_bare h
    | union name =>
        dsimp only
        split
        · rename_i arg hargs
          have hmem : arg ∈ args.filter fun arg => arg ≠ .atom .none := hargs ▸ List.mem_singleton_self _
          have hclosed : typeVars arg = [] := Part.closed (.arg (List.mem_filter.mp hmem).1) h
          rw [refType_closed context.bindings hclosed]
          rfl
        · rfl
    | list | tuple | set | frozenset =>
        dsimp only [arrayRule]
        split <;> rfl
    | dict =>
        dsimp only
        split <;> rfl

-- A type is derived, with type variables bound, as another is derived without. An optional type
-- that a variable makes optional once more is one type there, and two here.
inductive Mirrored (program : Program) (context : Context) (pyType other : PyType) : Prop
  | schema {schema : Fields} (h : rule program context pyType = .schema schema)
      (hother : rule program context.bare other = .schema schema)
  | component {key : PyType} (h : rule program context pyType = .component key)
      (hother : rule program context.bare other = .component key)
  | within {inner : PyType} {wrap : Wrap} (h : rule program context pyType = .within context inner wrap)
      (hother : rule program context.bare other = .within context.bare (instantiate context.bindings inner) wrap)
      (hfield : FieldType inner)
  | root {root : Context} {inner : PyType} {wrap : Wrap} (h : rule program context pyType = .within root inner wrap)
      (hother : rule program context.bare other = .within root inner wrap)
  | emptied {inner : PyType} (h : rule program context pyType = .within context inner (.nullable none))
      (hinner : rule program context inner = .schema []) (hother : rule program context.bare other = .schema [])
  | collapsed {inner nested : PyType} {refType : Option Str}
      (h : rule program context pyType = .within context inner (.nullable none))
      (hinner : rule program context inner = .within context nested (.nullable refType))
      (hother : rule program context.bare other = .within context.bare nested (.nullable refType))
      (hclosed : typeVars nested = [])

theorem Mirrored.congr {first other : PyType} (h : Mirrored program context first other)
    (hrule : rule program context pyType = rule program context first) : Mirrored program context pyType other := by
  cases h with
  | schema hfirst hother => exact .schema (hrule.trans hfirst) hother
  | component hfirst hother => exact .component (hrule.trans hfirst) hother
  | within hfirst hother hfield => exact .within (hrule.trans hfirst) hother hfield
  | root hfirst hother => exact .root (hrule.trans hfirst) hother
  | emptied hfirst hinner hother => exact .emptied (hrule.trans hfirst) hinner hother
  | collapsed hfirst hinner hother hclosed => exact .collapsed (hrule.trans hfirst) hinner hother hclosed

theorem mirrored_closed (h : typeVars pyType = []) : Mirrored program context pyType pyType := by
  have hbare : rule program context.bare pyType = (rule program context pyType).bare := rule_bare h
  cases hrule : rule program context pyType with
  | schema schema =>
      rw [hrule] at hbare
      exact .schema hrule hbare
  | component key =>
      rw [hrule] at hbare
      exact .component hrule hbare
  | within inner other wrap =>
      rw [hrule] at hbare
      rcases rule_within_cases hrule with ⟨rfl, hpart⟩ | ⟨id, -, -, rfl⟩
      · rw [resolveVar_closed _ h] at hpart
        have hclosed := hpart.closed h
        refine .within hrule ?_ (.closed hclosed)
        rw [instantiate_closed _ hclosed]
        exact hbare
      · exact .root hrule hbare

-- What a variable stands for is derived as it is without the variable.
theorem mirrored_variable (hbindings : SimpleBindings context.bindings) (name : Str) :
    Mirrored program context (.atom (.typeVar name)) (instantiate context.bindings (.atom (.typeVar name))) := by
  rw [instantiate]
  cases hget : Entries.get? name context.bindings with
  | none =>
      have hany : resolveVar context.bindings (.atom (.typeVar name)) = .atom .any := by
        rw [resolveVar, hget]
        rfl
      have hopen : rule program context (.atom (.typeVar name)) = .schema [] := by
        unfold rule
        rw [hany]
      exact .schema hopen rfl
  | some bound =>
      have hbound : resolveVar context.bindings (.atom (.typeVar name)) = bound := by
        rw [resolveVar, hget]
        rfl
      rcases hbindings _ (Entries.mem_of_get? hget) with ⟨free, hfree⟩ | hclosed
      · change bound = _ at hfree
        have hopen : rule program context (.atom (.typeVar name)) = .schema [] := by
          unfold rule
          rw [hbound, hfree]
        rw [hfree]
        exact .schema hopen rfl
      · apply (mirrored_closed hclosed).congr
        apply rule_of_resolveVar
        rw [hbound, resolveVar_closed _ hclosed]

section Unions

variable {args : List PyType} {arg : PyType}

-- A union of a type and `None`.
theorem rule_union_optional (name : Str) (hnodup : args.Nodup) (harg : arg ∈ args) (hnone : .atom .none ∈ args)
    (hne : arg ≠ .atom .none) (hall : ∀ other ∈ args, other = arg ∨ other = .atom .none) :
    rule program context (.alias (.union name) args) =
      .within context arg (.nullable (refType program context.bindings arg)) := by
  have hfilter : args.filter (fun other => other ≠ .atom .none) = [arg] := by
    apply List.perm_singleton.mp
    apply (List.perm_ext_iff_of_nodup (hnodup.filter _) (List.nodup_singleton arg)).mpr
    intro other
    rw [List.mem_filter, decide_eq_true_eq, List.mem_singleton]
    constructor
    · rintro ⟨hmem, hother⟩
      exact (hall other hmem).resolve_right hother
    · rintro rfl
      exact ⟨harg, hne⟩
  have hlength : args.length ≠ 1 := by
    intro hone
    obtain ⟨only, rfl⟩ := List.length_eq_one_iff.mp hone
    exact hne ((List.mem_singleton.mp harg).trans (List.mem_singleton.mp hnone).symm)
  show (match args.filter fun other => other ≠ .atom .none with
    | [arg] => _
    | _ => _) = _
  rw [hfilter]
  dsimp only
  rw [if_neg hlength]

-- A union of two types has no one schema.
theorem rule_union_mixed (name : Str) {other : PyType} (harg : arg ∈ args) (hother : other ∈ args) (hne : arg ≠ other)
    (hnone : arg ≠ .atom .none) (hnone' : other ≠ .atom .none) :
    rule program context (.alias (.union name) args) = .schema [] := by
  have harg : arg ∈ args.filter fun item => item ≠ .atom .none :=
    List.mem_filter.mpr ⟨harg, decide_eq_true hnone⟩
  have hother : other ∈ args.filter fun item => item ≠ .atom .none :=
    List.mem_filter.mpr ⟨hother, decide_eq_true hnone'⟩
  show (match args.filter fun item => item ≠ .atom .none with
    | [arg] => _
    | _ => _) = _
  split
  · rename_i hfilter
    rw [hfilter] at harg hother
    exact absurd ((List.mem_singleton.mp harg).trans (List.mem_singleton.mp hother).symm) hne
  · rfl

theorem unionOf_of_ne (name : Str) {other : PyType} (harg : arg ∈ args.flatMap members)
    (hother : other ∈ args.flatMap members) (hne : arg ≠ other) :
    unionOf name args = .alias (.union name) (distinct (args.flatMap members)) := by
  unfold unionOf
  split
  · rename_i hsingle
    rw [← mem_distinct, hsingle] at harg hother
    exact absurd ((List.mem_singleton.mp harg).trans (List.mem_singleton.mp hother).symm) hne
  · rfl

theorem rule_unionOf_optional (name : Str) (harg : arg ∈ args.flatMap members)
    (hnone : .atom .none ∈ args.flatMap members) (hne : arg ≠ .atom .none)
    (hall : ∀ other ∈ args.flatMap members, other = arg ∨ other = .atom .none) :
    rule program context (unionOf name args) =
      .within context arg (.nullable (refType program context.bindings arg)) := by
  rw [unionOf_of_ne name harg hnone hne]
  exact rule_union_optional name (nodup_distinct _) (mem_distinct.mpr harg) (mem_distinct.mpr hnone) hne
    fun other hother => hall other (mem_distinct.mp hother)

theorem rule_unionOf_mixed (name : Str) {other : PyType} (harg : arg ∈ args.flatMap members)
    (hother : other ∈ args.flatMap members) (hne : arg ≠ other) (hnone : arg ≠ .atom .none)
    (hnone' : other ≠ .atom .none) : rule program context (unionOf name args) = .schema [] := by
  rw [unionOf_of_ne name harg hother hne]
  exact rule_union_mixed name (mem_distinct.mpr harg) (mem_distinct.mpr hother) hne hnone hnone'

-- A union of more than one type is one type beside `None`, or more.
theorem union_cases (hnodup : args.Nodup) (hlength : 2 ≤ args.length) :
    (∃ arg ∈ args, arg ≠ .atom .none ∧ .atom .none ∈ args ∧ ∀ other ∈ args, other = arg ∨ other = .atom .none) ∨
      ∃ arg ∈ args, ∃ other ∈ args, arg ≠ other ∧ arg ≠ .atom .none ∧ other ≠ .atom .none := by
  by_cases hmixed : ∃ arg ∈ args, ∃ other ∈ args, arg ≠ other ∧ arg ≠ .atom .none ∧ other ≠ .atom .none
  · exact .inr hmixed
  · left
    have hsame : ∀ arg ∈ args, ∀ other ∈ args, arg ≠ .atom .none → other ≠ .atom .none → arg = other := by
      intro arg harg other hother hne hne'
      by_contra hdiffer
      exact hmixed ⟨arg, harg, other, hother, hdiffer, hne, hne'⟩
    match args, hnodup, hlength with
    | first :: second :: rest, hnodup, _ =>
        have hfirst : first ∈ first :: second :: rest := List.mem_cons_self
        have hsecond : second ∈ first :: second :: rest := List.mem_cons_of_mem _ List.mem_cons_self
        have hne : first ≠ second := by
          rintro rfl
          exact (List.nodup_cons.mp hnodup).1 List.mem_cons_self
        have hone : ∀ arg ∈ first :: second :: rest, arg ≠ .atom .none → .atom .none ∈ first :: second :: rest →
            ∃ arg ∈ first :: second :: rest, arg ≠ .atom .none ∧ .atom .none ∈ first :: second :: rest ∧
              ∀ other ∈ first :: second :: rest, other = arg ∨ other = .atom .none := by
          intro arg harg hplain hnone
          refine ⟨arg, harg, hplain, hnone, fun other hother => ?_⟩
          by_cases hother' : other = .atom .none
          · exact .inr hother'
          · exact .inl (hsame other hother arg harg hother' hplain)
        by_cases hnone : first = .atom .none
        · exact hone second hsecond (fun heq => hne (hnone.trans heq.symm)) (hnone ▸ hfirst)
        · refine hone first hfirst hnone ?_
          by_cases hnone' : second = .atom .none
          · exact hnone' ▸ hsecond
          · exact absurd (hsame first hfirst second hsecond hnone hnone') hne

end Unions

section Fields

variable {args : List PyType} {arg : PyType}

theorem instantiate_alias (bindings : Bindings) {origin : Origin} (h : isUnion (.alias origin args) = false) :
    instantiate bindings (.alias origin args) = .alias origin (args.map (instantiate bindings)) := by
  cases origin with
  | union name => cases h
  | list | tuple | set | frozenset | dict | cls =>
      rw [instantiate, instantiateArgs_eq]
      nofun

theorem isUnion_collection {origin : Origin} (h : collects origin = true) (args : List PyType) :
    isUnion (.alias origin args) = false := by
  cases origin with
  | union => cases h
  | list | tuple | set | frozenset | dict | cls => rfl

theorem instantiate_union (bindings : Bindings) (name : Str) (h : argTypeVars args ≠ []) :
    instantiate bindings (.alias (.union name) args) = unionOf name (args.map (instantiate bindings)) := by
  rw [instantiate, if_neg h, instantiateArgs_eq]

theorem unionOf_single (name : Str) (harg : arg ∈ args.flatMap members)
    (hall : ∀ other ∈ args.flatMap members, other = arg) : unionOf name args = arg := by
  have hsingle : distinct (args.flatMap members) = [arg] := by
    apply List.perm_singleton.mp
    apply (List.perm_ext_iff_of_nodup (nodup_distinct _) (List.nodup_singleton arg)).mpr
    intro other
    rw [mem_distinct, List.mem_singleton]
    constructor
    · exact hall other
    · rintro rfl
      exact harg
  unfold unionOf
  rw [hsingle]

theorem unionOf_cases (name : Str) (hnone : .atom .none ∈ args.flatMap members) :
    unionOf name args = .atom .none ∨ isUnion (unionOf name args) = true := by
  unfold unionOf
  split
  · rename_i hsingle
    rw [← mem_distinct, hsingle] at hnone
    exact .inl (List.mem_singleton.mp hnone).symm
  · exact .inr rfl

-- Nothing turns into `...`.
theorem instantiate_ellipsis (hargs : ∀ entry ∈ context.bindings, Argument entry.2) (hfield : FieldType arg) :
    instantiate context.bindings arg = .atom .ellipsis ↔ arg = .atom .ellipsis := by
  cases hfield with
  | closed h => rw [instantiate_closed _ h]
  | typeVar name =>
      rw [instantiate]
      cases hget : Entries.get? name context.bindings with
      | none => exact Iff.rfl
      | some bound => exact ⟨fun heq => absurd heq (hargs _ (Entries.mem_of_get? hget)).ellipsis, nofun⟩
  | @collection origin items horigin _ =>
      rw [instantiate_alias _ (isUnion_collection horigin items)]
      exact ⟨nofun, nofun⟩
  | @optional name items item hitems _ _ =>
      refine ⟨fun heq => ?_, nofun⟩
      by_cases hclosed : argTypeVars items = []
      · rw [instantiate, if_pos hclosed] at heq
        cases heq
      · have hnone : .atom .none ∈ (items.map (instantiate context.bindings)).flatMap members := by
          apply List.mem_flatMap.mpr
          refine ⟨.atom .none, List.mem_map.mpr ⟨.atom .none, ?_, rfl⟩, List.mem_singleton_self _⟩
          rcases hitems with rfl | rfl <;> simp
        rw [instantiate_union _ _ hclosed] at heq
        rcases unionOf_cases name hnone with hsingle | hunion
        · rw [hsingle] at heq
          cases heq
        · rw [heq] at hunion
          cases hunion
  | generic _ =>
      rw [instantiate_alias _ rfl]
      exact ⟨nofun, nofun⟩

theorem mirrored_array (hargs : ∀ entry ∈ context.bindings, Argument entry.2) (h : ∀ arg ∈ args, FieldType arg)
    {first other : PyType} (hfirst : rule program context first = arrayRule context args)
    (hother : rule program context.bare other =
      arrayRule context.bare (args.map (instantiate context.bindings))) : Mirrored program context first other := by
  have hfilter : (args.map (instantiate context.bindings)).filter (fun arg => arg ≠ .atom .ellipsis) =
      (args.filter fun arg => arg ≠ .atom .ellipsis).map (instantiate context.bindings) := by
    rw [List.filter_map]
    congr 1
    apply List.filter_congr
    intro arg harg
    show decide _ = decide _
    rw [decide_eq_decide, ne_eq, ne_eq, instantiate_ellipsis hargs (h arg harg)]
  unfold arrayRule at hfirst hother
  rw [hfilter] at hother
  cases hitems : args.filter fun arg => arg ≠ .atom .ellipsis with
  | nil =>
      rw [hitems] at hfirst hother
      exact .schema hfirst hother
  | cons item rest =>
      rw [hitems] at hfirst hother
      have hitem : item ∈ args.filter fun arg => arg ≠ .atom .ellipsis := hitems ▸ List.mem_cons_self
      exact .within hfirst hother (h item (List.mem_filter.mp hitem).1)

theorem mirrored_collection (hargs : ∀ entry ∈ context.bindings, Argument entry.2) {origin : Origin}
    (horigin : collects origin = true) (h : ∀ arg ∈ args, FieldType arg) :
    Mirrored program context (.alias origin args) (instantiate context.bindings (.alias origin args)) := by
  rw [instantiate_alias _ (isUnion_collection horigin args)]
  cases origin with
  | union | cls => cases horigin
  | list | tuple | set | frozenset => exact mirrored_array hargs h rfl rfl
  | dict =>
      rcases args with _ | ⟨key, _ | ⟨value, _ | ⟨other, rest⟩⟩⟩
      · exact .schema rfl rfl
      · exact .schema rfl rfl
      · exact .within rfl rfl (h value (List.mem_cons_of_mem _ List.mem_cons_self))
      · exact .schema rfl rfl

theorem instantiate_simple (bindings : Bindings) (h : Simple arg) :
    instantiate bindings arg = resolveArg bindings arg := by
  rcases h with ⟨name, rfl⟩ | hclosed
  · rfl
  · rw [instantiate_closed _ hclosed, resolveArg_closed _ hclosed]

-- An instance of a generic class is hoisted by the same key, if its arguments are looked up whole.
theorem mirrored_generic {id : ClassId} (happlied : ∀ key, rule program context (.alias (.cls id) args) =
    .component key → ∀ arg ∈ args, Simple arg) :
    Mirrored program context (.alias (.cls id) args) (instantiate context.bindings (.alias (.cls id) args)) := by
  rw [instantiate_alias _ rfl]
  cases hrule : rule program context (.alias (.cls id) args) with
  | component key =>
      refine .component hrule ?_
      obtain ⟨rfl, hnamed, hmodel⟩ := rule_component_iff.mp hrule
      have hresolved : args.map (instantiate context.bindings) = args.map (resolveArg context.bindings) :=
        List.map_congr_left fun arg harg => instantiate_simple _ (happlied _ hrule arg harg)
      apply rule_component_iff.mpr
      refine ⟨?_, hnamed, hmodel⟩
      show resolveAlias context.bindings (.alias (.cls id) args) = resolveAlias [] _
      rw [resolveAlias_nil, resolveAlias_alias, hresolved]
      rfl
  | within inner other wrap => exact absurd hrule classRule_within
  | schema schema =>
      refine .schema hrule ?_
      change classRule program context (.alias (.cls id) args) = _ at hrule
      show classRule program context.bare (.alias (.cls id) _) = _
      unfold classRule at hrule ⊢
      split at hrule
      · rename_i hmodel
        cases hrule
        exact if_pos hmodel
      · rename_i hmodel
        split at hrule
        · cases hrule
        · rename_i hnamed
          cases hrule
          exact (if_neg hmodel).trans (if_neg hnamed)

-- The wrapper of an optional type is the same with the type variables replaced.
theorem refType_instantiate (hbindings : SimpleBindings context.bindings) (hfield : FieldType arg)
    (hunion : isUnion arg = false) :
    refType program context.bindings arg = refType program [] (instantiate context.bindings arg) := by
  cases hfield with
  | closed h => rw [instantiate_closed _ h, refType_closed _ h]
  | typeVar name =>
      rw [instantiate]
      unfold refType
      rw [resolveVar]
      cases hget : Entries.get? name context.bindings with
      | none => rfl
      | some bound =>
          rcases hbindings _ (Entries.mem_of_get? hget) with ⟨free, hfree⟩ | hclosed
          · change bound = _ at hfree
            rw [hfree]
            rfl
          · rw [Option.getD_some, Option.getD_some, resolveVar_closed [] hclosed]
  | @collection origin items horigin _ =>
      rw [instantiate_alias _ (isUnion_collection horigin items)]
      cases origin with
      | union | cls => cases horigin
      | list | tuple | set | frozenset | dict => rfl
  | optional => cases hunion
  | generic _ =>
      rw [instantiate_alias _ rfl]
      rfl

-- Only a type variable turns into a union, or into `None`, which it stands for.
theorem stands_for_union (hbindings : SimpleBindings context.bindings)
    (hargs : ∀ entry ∈ context.bindings, Argument entry.2) (hfield : FieldType arg)
    (hunion : isUnion arg = false) (hne : arg ≠ .atom .none)
    (h : isUnion (instantiate context.bindings arg) = true ∨ instantiate context.bindings arg = .atom .none) :
    Argument (instantiate context.bindings arg) ∧ typeVars (instantiate context.bindings arg) = [] ∧
      rule program context arg = rule program context (instantiate context.bindings arg) := by
  cases hfield with
  | closed hclosed =>
      rw [instantiate_closed _ hclosed] at h
      exact absurd h (by simp [hunion, hne])
  | typeVar name =>
      have hinstance : instantiate context.bindings (.atom (.typeVar name)) =
          (Entries.get? name context.bindings).getD (.atom (.typeVar name)) := by rw [instantiate]
      rw [hinstance] at h ⊢
      cases hget : Entries.get? name context.bindings with
      | none =>
          rw [hget] at h
          rcases h with h | h <;> cases h
      | some bound =>
          have hmem := Entries.mem_of_get? hget
          rw [hget, Option.getD_some] at h
          have hclosed : typeVars bound = [] := by
            rcases hbindings _ hmem with ⟨free, hfree⟩ | hclosed
            · change bound = _ at hfree
              rw [hfree] at h
              rcases h with h | h <;> cases h
            · exact hclosed
          refine ⟨hargs _ hmem, hclosed, rule_of_resolveVar ?_⟩
          rw [Option.getD_some, resolveVar_closed _ hclosed, resolveVar, hget]
          rfl
  | @collection origin items horigin _ =>
      rw [instantiate_alias _ (isUnion_collection horigin items)] at h
      rcases h with h | h
      · rw [isUnion_collection horigin] at h
        cases h
      · cases h
  | optional => cases hunion
  | generic _ =>
      rw [instantiate_alias _ rfl] at h
      rcases h with h | h <;> cases h

theorem members_of_not_union (h : isUnion pyType = false) : members pyType = [pyType] := by
  rcases pyType with atom | ⟨base, metadata⟩ | ⟨origin, args⟩
  · rfl
  · rfl
  · cases origin with
    | union => cases h
    | list | tuple | set | frozenset | dict | cls => rfl

theorem exists_of_isUnion (h : isUnion pyType = true) : ∃ name args, pyType = .alias (.union name) args := by
  rcases pyType with atom | ⟨base, metadata⟩ | ⟨origin, args⟩
  · cases h
  · cases h
  · cases origin with
    | union name => exact ⟨name, args, rfl⟩
    | list | tuple | set | frozenset | dict | cls => cases h

-- An optional type is optional once, also where its argument is optional already.
theorem mirrored_optional (hbindings : SimpleBindings context.bindings)
    (hargs : ∀ entry ∈ context.bindings, Argument entry.2) (name : Str)
    (hitems : args = [arg, .atom .none] ∨ args = [.atom .none, arg]) (hunion : isUnion arg = false)
    (hfield : FieldType arg) (hopen : argTypeVars args ≠ []) : Mirrored program context (.alias (.union name) args)
      (instantiate context.bindings (.alias (.union name) args)) := by
  have hne : arg ≠ .atom .none := by
    rintro rfl
    rcases hitems with rfl | rfl <;> exact hopen rfl
  have hrule : rule program context (.alias (.union name) args) =
      .within context arg (.nullable (refType program context.bindings arg)) := by
    apply rule_union_optional name _ _ _ hne <;> rcases hitems with rfl | rfl <;> simp [hne, hne.symm]
  have hmembers : ∀ other, other ∈ (args.map (instantiate context.bindings)).flatMap members ↔
      other ∈ members (instantiate context.bindings arg) ∨ other = .atom .none := by
    intro other
    rcases hitems with rfl | rfl
    · simp [instantiate, members]
    · simp [instantiate, members, or_comm]
  have hnone : .atom .none ∈ (args.map (instantiate context.bindings)).flatMap members := (hmembers _).mpr (.inr rfl)
  have htype : refType program context.bindings arg = refType program [] (instantiate context.bindings arg) :=
    refType_instantiate hbindings hfield hunion
  have hstands := @stands_for_union program context arg hbindings hargs hfield hunion hne
  rw [instantiate_union _ _ hopen]
  generalize hinstance : instantiate context.bindings arg = item at hmembers htype hstands
  by_cases hitem : isUnion item = true
  · -- what is optional, or has no one type, already
    obtain ⟨hargument, hclosed, hvariable⟩ := hstands (.inl hitem)
    obtain ⟨other, items, rfl⟩ := exists_of_isUnion hitem
    obtain ⟨hnodup, hlength⟩ := hargument.union other items rfl
    rw [htype] at hrule
    rcases union_cases hnodup hlength with
      ⟨one, hone, hplain, hmem, hall⟩ | ⟨one, hone, two, htwo, hdiffer, hplain, hplain'⟩
    · have hnested : typeVars one = [] := Part.closed (.arg hone) hclosed
      rw [rule_union_optional other hnodup hone hmem hplain hall, refType_closed _ hnested] at hvariable
      refine .collapsed hrule hvariable ?_ hnested
      exact rule_unionOf_optional name ((hmembers one).mpr (.inl hone)) hnone hplain
        fun other hother => ((hmembers other).mp hother).elim (hall other) .inr
    · rw [rule_union_mixed other hone htwo hdiffer hplain hplain'] at hvariable
      refine .emptied hrule hvariable ?_
      exact rule_unionOf_mixed name ((hmembers one).mpr (.inl hone)) ((hmembers two).mpr (.inl htwo)) hdiffer hplain
        hplain'
  · rw [members_of_not_union (Bool.eq_false_iff.mpr hitem)] at hmembers
    by_cases hempty : item = .atom .none
    · obtain ⟨-, -, hvariable⟩ := hstands (.inr hempty)
      have hcollapsed : unionOf name (args.map (instantiate context.bindings)) = .atom .none := by
        apply unionOf_single name hnone
        intro other hother
        rcases (hmembers other).mp hother with hother | hother
        · exact (List.mem_singleton.mp hother).trans hempty
        · exact hother
      rw [hcollapsed]
      rw [htype, hempty] at hrule
      rw [hempty] at hvariable
      exact .emptied hrule hvariable rfl
    · refine .within hrule ?_ hfield
      rw [htype, hinstance]
      apply rule_unionOf_optional name ((hmembers item).mpr (.inl (List.mem_singleton_self item))) hnone hempty
      intro other hother
      rcases (hmembers other).mp hother with hother | hother
      · exact .inl (List.mem_singleton.mp hother)
      · exact .inr hother

theorem mirrored (hbindings : SimpleBindings context.bindings) (hargs : ∀ entry ∈ context.bindings, Argument entry.2)
    (hfield : FieldType pyType) (happlied : ∀ id args key, pyType = .alias (.cls id) args →
      rule program context pyType = .component key → ∀ arg ∈ args, Simple arg) :
    Mirrored program context pyType (instantiate context.bindings pyType) := by
  cases hfield with
  | closed h =>
      rw [instantiate_closed _ h]
      exact mirrored_closed h
  | typeVar name => exact mirrored_variable hbindings name
  | collection horigin h => exact mirrored_collection hargs horigin h
  | @optional name args arg hitems hunion h =>
      by_cases hclosed : argTypeVars args = []
      · rw [instantiate, if_pos hclosed]
        exact mirrored_closed hclosed
      · exact mirrored_optional hbindings hargs name hitems hunion h hclosed
  | generic _ => exact mirrored_generic fun key hkey => happlied _ _ key rfl hkey

end Fields

end Rules

section Outlines

variable {program : Program} {context : Context} {pyType other : PyType} {called : PyType → Str}

-- Two outlines with one ending that are written alike.
structure Outline.Same (outline other : Outline) : Prop where
  ending : outline.ending = other.ending
  write : ∀ called, outline.write called = other.write called

theorem Outline.Same.wrap {outline other : Outline} (h : outline.Same other) (wrap : Wrap) :
    Outline.Same ⟨wrap :: outline.wraps, outline.ending⟩ ⟨wrap :: other.wraps, other.ending⟩ where
  ending := h.ending
  write called := by
    show wrap.apply (outline.write called) = wrap.apply (other.write called)
    rw [h.write called]

theorem nullable_nullable (schema : Fields) (refType : Option Str) :
    nullable (nullable schema refType) none = nullable schema refType := by
  have hset : ∀ fields : Fields, nullable (Entries.set ("nullable" : Str) (Json.bool true) fields) none =
      Entries.set ("nullable" : Str) (Json.bool true) fields := by
    intro fields
    have hne : Entries.set ("nullable" : Str) (Json.bool true) fields ≠ [] := by
      intro hempty
      have hget := Entries.get?_set_self ("nullable" : Str) (Json.bool true) fields
      rw [hempty] at hget
      cases hget
    unfold nullable
    rw [if_neg hne]
    exact Entries.set_set _ _ _ _
  have hcases : nullable schema refType = [] ∨
      nullable schema refType = Entries.set ("nullable" : Str) (Json.bool true) schema ∨
      ∃ name, nullable schema refType = [Json.field "type" (.str name), Json.field "nullable" (.bool true),
        Json.field "allOf" (.arr [.obj schema])] := by
    unfold nullable
    by_cases hempty : schema = []
    · exact .inl ((if_pos hempty).trans hempty)
    · rw [if_neg hempty]
      cases refType with
      | none => exact .inr (.inl rfl)
      | some name =>
          dsimp only
          split
          · exact .inr (.inr ⟨name, rfl⟩)
          · exact .inr (.inl rfl)
  rcases hcases with hempty | hset' | ⟨name, hwrapped⟩
  · rw [hempty]
    rfl
  · rw [hset', hset]
  · rw [hwrapped]
    rfl

-- What type variables stand for does not matter to a type that has none.
theorem Describes.bare {outline : Outline} (h : Describes program context pyType outline)
    (hclosed : typeVars pyType = []) : Describes program context.bare pyType outline := by
  induction h with
  | schema hrule =>
      apply Describes.schema
      rw [rule_bare hclosed, hrule]
      rfl
  | component hrule =>
      apply Describes.component
      rw [rule_bare hclosed, hrule]
      rfl
  | @within context _ first _ _ _ hrule hinner ih =>
      have hbare : rule program context.bare first = (rule program context first).bare := rule_bare hclosed
      rw [hrule] at hbare
      rcases rule_within_cases hrule with ⟨rfl, hpart⟩ | ⟨id, -, -, rfl⟩
      · rw [resolveVar_closed _ hclosed] at hpart
        exact .within hbare (ih (hpart.closed hclosed))
      · exact .within hbare hinner

-- What is derived alike is described alike, if what it is derived from is.
theorem Mirrored.describes (h : Mirrored program context pyType other)
    (hinner : ∀ inner wrap, rule program context pyType = .within context inner wrap → FieldType inner →
      ∀ nested, Describes program context inner nested →
        ∃ same, Describes program context.bare (instantiate context.bindings inner) same ∧ same.Same nested)
    {outline : Outline} (hdescribes : Describes program context pyType outline) :
    ∃ same, Describes program context.bare other same ∧ same.Same outline := by
  cases h with
  | schema hrule hother =>
      rw [hdescribes.of_schema hrule]
      exact ⟨_, .schema hother, rfl, fun _ => rfl⟩
  | component hrule hother =>
      rw [hdescribes.of_component hrule]
      exact ⟨_, .component hother, rfl, fun _ => rfl⟩
  | within hrule hother hfield =>
      obtain ⟨nested, hnested, rfl⟩ := hdescribes.of_within hrule
      obtain ⟨same, hsame, hwritten⟩ := hinner _ _ hrule hfield nested hnested
      exact ⟨_, .within hother hsame, hwritten.wrap _⟩
  | root hrule hother =>
      obtain ⟨nested, hnested, rfl⟩ := hdescribes.of_within hrule
      exact ⟨_, .within hother hnested, rfl, fun _ => rfl⟩
  | emptied hrule hvariable hother =>
      obtain ⟨nested, hnested, rfl⟩ := hdescribes.of_within hrule
      rw [hnested.of_schema hvariable]
      exact ⟨_, .schema hother, rfl, fun _ => rfl⟩
  | collapsed hrule hvariable hother hclosed =>
      obtain ⟨middle, hmiddle, rfl⟩ := hdescribes.of_within hrule
      obtain ⟨nested, hnested, rfl⟩ := hmiddle.of_within hvariable
      exact ⟨_, .within hother (hnested.bare hclosed), rfl, fun called => (nullable_nullable _ _).symm⟩

end Outlines

end Benzene.Contract.Derivation
