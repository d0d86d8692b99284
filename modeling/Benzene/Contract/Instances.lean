import Benzene.Contract.Generics
import Benzene.Contract.Reordering

namespace Benzene.Contract.Derivation

open Benzene.Data
open Benzene.Mesh (Member)

section Instances

variable [UnicodeData] (program : Program) (start : Context → PyType → Prop)

-- Every generic class that is hoisted is applied to type variables, and to types without any: only a
-- variable that is an argument itself is looked up when the instance is entered.
def Applied : Prop :=
  ∀ context id args key, Met program start context (.alias (.cls id) args) →
    rule program context (.alias (.cls id) args) = .component key → ∀ arg ∈ args, Simple arg

-- One type is derived, by itself.
def only (pyType : PyType) (context : Context) (other : PyType) : Prop := context = topLevel ∧ other = pyType

variable {program start} {context : Context} {pyType other : PyType} {types : List PyType}

omit [UnicodeData] in
theorem only_start (pyType : PyType) : ∀ context other, only pyType context other →
    context = topLevel ∧ other ∈ [pyType] :=
  fun _ _ h => ⟨h.1, List.mem_singleton.mpr h.2⟩

omit [UnicodeData] in
theorem simple_resolveArg (hbindings : SimpleBindings context.bindings) (h : Simple pyType) :
    Simple (resolveArg context.bindings pyType) := by
  unfold resolveArg
  split
  · rename_i name
    cases hget : Entries.get? name context.bindings with
    | none => exact h
    | some bound => exact hbindings _ (Entries.mem_of_get? hget)
  · exact h

-- What an instance binds its variables to is looked up no further.
theorem Applied.typeArgs (happlied : Applied program start) (hmet : Met program start context pyType)
    (hbindings : SimpleBindings context.bindings) {key arg : PyType}
    (hrule : rule program context pyType = .component key) (harg : arg ∈ typeArgs key) : Simple arg := by
  obtain ⟨rfl, hnamed, -⟩ := rule_component_iff.mp hrule
  rcases resolveVar_cases hbindings pyType with hself | hsimple
  · rw [hself] at harg hnamed
    rcases pyType with atom | ⟨base, metadata⟩ | ⟨origin, args⟩
    · cases harg
    · cases harg
    · cases origin with
      | cls id =>
          rw [resolveAlias_alias] at harg
          obtain ⟨source, hsource, rfl⟩ := List.mem_map.mp harg
          exact simple_resolveArg hbindings (happlied context id args _ hmet hrule source hsource)
      | union | list | tuple | set | frozenset | dict => cases hnamed
  · generalize resolveVar context.bindings pyType = resolved at harg hnamed hsimple
    rcases hsimple with ⟨name, rfl⟩ | hclosed
    · cases hnamed
    · rw [resolveAlias_closed _ hclosed] at harg
      rcases resolved with atom | ⟨base, metadata⟩ | ⟨origin, args⟩
      · cases harg
      · cases harg
      · exact .inr (Part.closed (.arg harg) hclosed)

theorem Applied.bindings (happlied : Applied program start) (hstart : ∀ context pyType, start context pyType →
    context = topLevel ∧ pyType ∈ types) (h : Met program start context pyType) : SimpleBindings context.bindings := by
  induction h with
  | start h =>
      obtain ⟨rfl, -⟩ := hstart _ _ h
      exact simpleBindings_nil
  | within _ hrule ih =>
      rcases rule_within_cases hrule with ⟨rfl, -⟩ | ⟨id, -, -, rfl⟩
      · exact ih
      · exact simpleBindings_nil
  | property hmet hrule hcontent _ _ ih =>
      have hargs := fun arg => @Applied.typeArgs _ _ _ _ _ happlied hmet ih _ arg hrule
      unfold content at hcontent
      split at hcontent
      · cases hcontent
      · cases hcontent
      · cases hcontent
        exact simpleBindings_nil
      · cases hcontent
        exact fun entry hentry => hargs entry.2 (List.of_mem_zip hentry).2
      · cases hcontent

theorem Applied.grounded (happlied : Applied program start) (hstart : ∀ context pyType, start context pyType →
    context = topLevel ∧ pyType ∈ types) : Grounded program start :=
  fun _ pyType hmet => exists_outline (happlied.bindings hstart hmet) pyType

theorem Applied.mirrored (happlied : Applied program start) (hmet : Met program start context pyType)
    (hbindings : SimpleBindings context.bindings) (hargs : ∀ entry ∈ context.bindings, Argument entry.2)
    (hfield : FieldType pyType) : Mirrored program context pyType (instantiate context.bindings pyType) := by
  apply Derivation.mirrored hbindings hargs hfield
  rintro id args key rfl hrule
  exact happlied context id args key hmet hrule

-- A field is described with the variables bound as it is with the variables replaced.
theorem Applied.describes (happlied : Applied program start) (hmet : Met program start context pyType)
    (hbindings : SimpleBindings context.bindings) (hargs : ∀ entry ∈ context.bindings, Argument entry.2)
    (hfield : FieldType pyType) {outline : Outline} (h : Describes program context pyType outline) :
    ∃ same, Describes program context.bare (instantiate context.bindings pyType) same ∧ same.Same outline := by
  induction h with
  | schema hrule =>
      apply (happlied.mirrored hmet hbindings hargs hfield).describes _ (.schema hrule)
      intro inner wrap hwithin
      rw [hrule] at hwithin
      cases hwithin
  | component hrule =>
      apply (happlied.mirrored hmet hbindings hargs hfield).describes _ (.component hrule)
      intro inner wrap hwithin
      rw [hrule] at hwithin
      cases hwithin
  | within hrule hinner ih =>
      apply (happlied.mirrored hmet hbindings hargs hfield).describes _ (.within hrule hinner)
      intro inner wrap hwithin hfieldInner nested hnested
      rw [hrule] at hwithin
      cases hwithin
      rw [hnested.unique hinner]
      exact ih (.within hmet hrule) hbindings hargs hfieldInner

-- What is met somewhere, or is met there with the type variables replaced.
def Shadows (program : Program) (start : Context → PyType → Prop) (context : Context) (pyType : PyType) : Prop :=
  Met program start context pyType ∨ ∃ source variableType, Met program start source variableType ∧
    (∀ entry ∈ source.bindings, Argument entry.2) ∧ FieldType variableType ∧ context = source.bare ∧
    pyType = instantiate source.bindings variableType

theorem Shadows.within (happlied : Applied program start) (hstart : ∀ context pyType, start context pyType →
      context = topLevel ∧ pyType ∈ types) {inner : Context} {wrap : Wrap} (h : Shadows program start context pyType)
    (hrule : rule program context pyType = .within inner other wrap) : Shadows program start inner other := by
  rcases h with hmet | ⟨source, variableType, hmet, hargs, hfield, rfl, rfl⟩
  · exact .inl (.within hmet hrule)
  · cases happlied.mirrored hmet (happlied.bindings hstart hmet) hargs hfield with
    | schema _ hother => rw [hother] at hrule; cases hrule
    | component _ hother => rw [hother] at hrule; cases hrule
    | emptied _ _ hother => rw [hother] at hrule; cases hrule
    | within hwithin hother hfieldInner =>
        rw [hother] at hrule
        cases hrule
        exact .inr ⟨source, _, .within hmet hwithin, hargs, hfieldInner, rfl, rfl⟩
    | root hwithin hother =>
        rw [hother] at hrule
        cases hrule
        exact .inl (.within hmet hwithin)
    | collapsed hwithin hinner hother hclosed =>
        rw [hother] at hrule
        cases hrule
        exact .inr ⟨source, _, .within (.within hmet hwithin) hinner, hargs, .closed hclosed, rfl,
          (instantiate_closed _ hclosed).symm⟩

-- What is hoisted where the variables are replaced is hoisted where they are bound.
theorem Shadows.component (happlied : Applied program start) (hstart : ∀ context pyType, start context pyType →
      context = topLevel ∧ pyType ∈ types) {key : PyType} (h : Shadows program start context pyType)
    (hrule : rule program context pyType = .component key) : ∃ source variableType,
      Met program start source variableType ∧ rule program source variableType = .component key ∧
      content program source key = content program context key := by
  rcases h with hmet | ⟨source, variableType, hmet, hargs, hfield, rfl, rfl⟩
  · exact ⟨context, pyType, hmet, hrule, rfl⟩
  · cases happlied.mirrored hmet (happlied.bindings hstart hmet) hargs hfield with
    | component hcomponent hother =>
        rw [hother] at hrule
        cases hrule
        exact ⟨source, variableType, hmet, hcomponent, rfl⟩
    | schema _ hother => rw [hother] at hrule; cases hrule
    | within _ hother _ => rw [hother] at hrule; cases hrule
    | root _ hother => rw [hother] at hrule; cases hrule
    | emptied _ _ hother => rw [hother] at hrule; cases hrule
    | collapsed _ _ hother _ => rw [hother] at hrule; cases hrule

end Instances

section Records

variable {program : Program} {context : Context} {pyType : PyType}

-- The hints of the plain dataclass that is written with the arguments.
def substitutedHints (bindings : Bindings) (hints : List (Str × PyType)) : List (Str × PyType) :=
  Entries.mapValues (fun hint => stripped (instantiate bindings hint)) hints

-- A generic dataclass, its arguments, and the plain dataclass with the arguments in place of the
-- type variables.
structure Substituted (program : Program) (id plain : ClassId) (args : List PyType) (parameters : List Str)
    (hints : List (Str × PyType)) (fields : List Str) : Prop where
  generic : (program.classAt id).kind = .dataclass parameters hints fields
  plain : (program.classAt plain).kind =
    .dataclass [] (substitutedHints (parameters.zip args) hints) fields
  hints : ∀ hint ∈ hints, FieldType hint.2 ∧ stripped hint.2 = hint.2
  args : ∀ arg ∈ args, Argument arg

theorem stripped_alias {origin : Origin} {args : List PyType} :
    stripped (.alias origin args) = .alias origin args ↔ ∀ arg ∈ args, stripped arg = arg := by
  rw [stripped, strippedArgs_eq, PyType.alias.injEq]
  constructor
  · intro ⟨_, h⟩ arg harg
    exact List.map_inj_left.mp (h.trans (List.map_id' args).symm) arg harg
  · intro h
    exact ⟨rfl, (List.map_congr_left h).trans (List.map_id' args)⟩

theorem stripped_members (h : stripped pyType = pyType) {arg : PyType} (harg : arg ∈ members pyType) :
    stripped arg = arg := by
  rcases hunion : isUnion pyType with _ | _
  · rw [members_of_not_union hunion] at harg
    rw [List.mem_singleton.mp harg, h]
  · obtain ⟨name, args, rfl⟩ := exists_of_isUnion hunion
    exact stripped_alias.mp h arg harg

theorem stripped_unionOf (name : Str) {args : List PyType} (h : ∀ arg ∈ args, stripped arg = arg) :
    stripped (unionOf name args) = unionOf name args := by
  have hmembers : ∀ arg ∈ distinct (args.flatMap members), stripped arg = arg := by
    intro arg harg
    obtain ⟨item, hitem, harg⟩ := List.mem_flatMap.mp (mem_distinct.mp harg)
    exact stripped_members (h item hitem) harg
  unfold unionOf
  split
  · rename_i arg hsingle
    rw [hsingle] at hmembers
    exact hmembers arg (List.mem_singleton_self arg)
  · exact stripped_alias.mpr hmembers

-- Nothing annotated comes in where a type variable is replaced.
theorem stripped_instantiate {bindings : Bindings} (hargs : ∀ entry ∈ bindings, Argument entry.2)
    (hfield : FieldType pyType) (h : stripped pyType = pyType) :
    stripped (instantiate bindings pyType) = instantiate bindings pyType := by
  induction hfield with
  | closed hclosed => rw [instantiate_closed _ hclosed, h]
  | typeVar name =>
      rw [instantiate]
      cases hget : Entries.get? name bindings with
      | none => rfl
      | some bound => exact (hargs _ (Entries.mem_of_get? hget)).plain
  | @collection origin args horigin _ ih =>
      rw [instantiate_alias _ (isUnion_collection horigin args), stripped_alias]
      intro arg harg
      obtain ⟨source, hsource, rfl⟩ := List.mem_map.mp harg
      exact ih source hsource (stripped_alias.mp h source hsource)
  | @optional name args arg hitems hunion _ ih =>
      by_cases hclosed : argTypeVars args = []
      · rw [instantiate, if_pos hclosed, h]
      · rw [instantiate_union _ _ hclosed]
        apply stripped_unionOf
        intro item hitem
        obtain ⟨source, hsource, rfl⟩ := List.mem_map.mp hitem
        have hsource' : source = arg ∨ source = .atom .none := by
          rcases hitems with rfl | rfl <;> simpa [or_comm] using hsource
        rcases hsource' with rfl | rfl
        · exact ih (stripped_alias.mp h source hsource)
        · rfl
  | @generic id args _ ih =>
      rw [instantiate_alias _ rfl, stripped_alias]
      intro arg harg
      obtain ⟨source, hsource, rfl⟩ := List.mem_map.mp harg
      exact ih source hsource (stripped_alias.mp h source hsource)

variable {id plain : ClassId} {args : List PyType} {parameters : List Str} {hints : List (Str × PyType)}
  {fields : List Str}

def hintOf (hints : List (Str × PyType)) (name : Str) : PyType := (Entries.get? name hints).getD (.atom .any)

theorem Substituted.bound (h : Substituted program id plain args parameters hints fields) :
    ∀ entry ∈ parameters.zip args, Argument entry.2 :=
  fun entry hentry => h.args entry.2 (List.of_mem_zip hentry).2

theorem Substituted.hint (h : Substituted program id plain args parameters hints fields) (name : Str) :
    FieldType (hintOf hints name) ∧
      hintOf (substitutedHints (parameters.zip args) hints) name =
        instantiate (parameters.zip args) (hintOf hints name) := by
  unfold hintOf substitutedHints
  rw [Entries.get?_mapValues]
  cases hget : Entries.get? name hints with
  | none => exact ⟨.closed rfl, rfl⟩
  | some hint =>
      obtain ⟨hfield, hplain⟩ := h.hints _ (Entries.mem_of_get? hget)
      exact ⟨hfield, stripped_instantiate h.bound hfield hplain⟩

end Records

section Dataclasses

variable [UnicodeData] {program : Program} {start : Context → PyType → Prop} {context : Context} {pyType key : PyType}
  {types : List PyType} {id : ClassId} {parameters : List Str} {hints : List (Str × PyType)} {fields : List Str}

omit [UnicodeData] in
theorem rule_dataclass (hdefinition : definition pyType = some id)
    (hkind : (program.classAt id).kind = .dataclass parameters hints fields) :
    rule program topLevel pyType = .component pyType := by
  have hself : resolveVar [] pyType = pyType := by
    unfold resolveVar
    split
    · cases hdefinition
    · rfl
  apply rule_component_iff.mpr
  show pyType = resolveAlias [] (resolveVar [] pyType) ∧ isNamed program (resolveVar [] pyType) = true ∧ _
  rw [hself, resolveAlias_nil]
  refine ⟨rfl, ?_, rfl⟩
  unfold isNamed
  rw [hdefinition]
  dsimp only
  rw [hkind]

-- A dataclass is derived outside models, with its parameters bound to its arguments.
theorem content_dataclass (hdefinition : definition key = some id)
    (hkind : (program.classAt id).kind = .dataclass parameters hints fields)
    (hstart : ∀ context pyType, start context pyType → context = topLevel ∧ pyType ∈ types)
    (hmet : Met program start context pyType) (hrule : rule program context pyType = .component key) :
    content program context key =
      .record ⟨[], false, parameters.zip (typeArgs key)⟩ (recordProperties hints fields) := by
  obtain ⟨rfl, -, hmodel⟩ := rule_component_iff.mp hrule
  have hroots := roots_met hstart hmet
  rw [definition_resolveAlias] at hdefinition
  have hinModel : context.inModel = false := by
    unfold isStdlibDataclass at hmodel
    rw [hdefinition] at hmodel
    dsimp only at hmodel
    rw [hkind, Bool.and_true] at hmodel
    exact hmodel
  unfold content
  rw [definition_resolveAlias, hdefinition]
  dsimp only [Option.map_some]
  rw [hkind, hinModel, hroots hinModel]

theorem met_field (hdefinition : definition pyType = some id)
    (hkind : (program.classAt id).kind = .dataclass parameters hints fields) {name : Str} (hname : name ∈ fields) :
    Met program (only pyType) ⟨[], false, parameters.zip (typeArgs pyType)⟩ (hintOf hints name) := by
  have hmet : Met program (only pyType) topLevel pyType := .start ⟨rfl, rfl⟩
  have hrule := rule_dataclass hdefinition hkind
  have hcontent := content_dataclass hdefinition hkind (only_start _) hmet hrule
  exact .property hmet hrule hcontent (List.mem_map_of_mem hname) rfl

end Dataclasses

section Blueprints

variable {as bs : List (Property × Outline)}

end Blueprints

section Derivations

variable [UnicodeData] {program : Program} {id plain : ClassId} {args : List PyType} {parameters : List Str}
  {hints : List (Str × PyType)} {fields : List Str}

-- What the plain dataclass leads to, the instance leads to.
theorem Substituted.shadows (h : Substituted program id plain args parameters hints fields)
    (happlied : Applied program (only (.alias (.cls id) args))) {context : Context} {pyType : PyType}
    (hmet : Met program (only (.atom (.cls plain))) context pyType) :
    (context = topLevel ∧ pyType = .atom (.cls plain)) ∨
      Shadows program (only (.alias (.cls id) args)) context pyType := by
  have hplainRule : rule program topLevel (.atom (.cls plain)) = .component (.atom (.cls plain)) :=
    rule_dataclass rfl h.plain
  induction hmet with
  | start hstart => exact .inl hstart
  | within _ hrule ih =>
      rcases ih with ⟨rfl, rfl⟩ | hshadows
      · rw [hplainRule] at hrule
        cases hrule
      · exact .inr (hshadows.within happlied (only_start _) hrule)
  | property hmet hrule hcontent hproperty htype ih =>
      rcases ih with ⟨rfl, rfl⟩ | hshadows
      · rw [hplainRule] at hrule
        cases hrule
        rw [content_dataclass rfl h.plain (only_start _) hmet hplainRule] at hcontent
        cases hcontent
        obtain ⟨name, hname, rfl⟩ := List.mem_map.mp hproperty
        cases htype
        obtain ⟨hfield, hhint⟩ := h.hint name
        exact .inr (.inr ⟨_, _, met_field rfl h.generic hname, h.bound, hfield, rfl, hhint⟩)
      · obtain ⟨source, variableType, hmetSource, hruleSource, hsame⟩ :=
          hshadows.component happlied (only_start _) hrule
        exact .inr (.inl (.property hmetSource hruleSource (hsame.trans hcontent) hproperty htype))

theorem Substituted.grounded (h : Substituted program id plain args parameters hints fields)
    (happlied : Applied program (only (.alias (.cls id) args))) : Grounded program (only (.atom (.cls plain))) := by
  intro context pyType hmet
  apply exists_outline
  rcases h.shadows happlied hmet with ⟨rfl, rfl⟩ | hinstance | ⟨source, variableType, -, -, -, rfl, rfl⟩
  · exact simpleBindings_nil
  · exact happlied.bindings (only_start _) hinstance
  · exact simpleBindings_nil

theorem Substituted.apart (h : Substituted program id plain args parameters hints fields)
    (happlied : Applied program (only (.alias (.cls id) args)))
    (hapart : Apart program (only (.alias (.cls id) args))) : Apart program (only (.atom (.cls plain))) := by
  intro context pyType key inner properties property other last lastType root hmet hrule hcontent hproperty htype
    hchain hroot
  rcases h.shadows happlied hmet with ⟨rfl, rfl⟩ | hshadows
  · have hplainRule : rule program topLevel (.atom (.cls plain)) = .component (.atom (.cls plain)) :=
      rule_dataclass rfl h.plain
    rw [hplainRule] at hrule
    cases hrule
    rw [content_dataclass rfl h.plain (only_start _) hmet hplainRule] at hcontent
    cases hcontent
    exact fun hmem => nomatch hmem
  · obtain ⟨source, variableType, hmetSource, hruleSource, hsame⟩ := hshadows.component happlied (only_start _) hrule
    exact hapart _ _ _ _ _ _ _ _ _ _ hmetSource hruleSource (hsame.trans hcontent) hproperty htype hchain hroot

end Derivations

section Documents

variable [UnicodeData] {program : Program} {registrations : Registrations} {mappings : Str × Str → List (Str × Str)}

-- Where generic classes are applied so, the order of registrations makes no difference.
theorem orderFree_of_applied (happlied : Applied program registrations.starts) (hdistinct : Distinct registrations)
    (hapart : Apart program registrations.starts) (hqualifies : Qualifies program registrations.starts)
    (hencodes : Encodes program registrations.starts) : OrderFree program mappings registrations := by
  apply (orderFree_iff_terminates hdistinct hapart hqualifies hencodes).mpr
  apply (terminates_iff hapart hencodes).mpr
  exact happlied.grounded starts_types

end Documents

section Sample

def isTypeVar : PyType → Bool
  | .atom (.typeVar _) => true
  | _ => false

instance (pyType : PyType) : Decidable (Simple pyType) :=
  decidable_of_iff (isTypeVar pyType = true ∨ typeVars pyType = []) (or_congr_left (by
    constructor
    · intro h
      unfold isTypeVar at h
      split at h
      · exact ⟨_, rfl⟩
      · cases h
    · rintro ⟨name, rfl⟩
      rfl))

-- What a generic class is applied to.
def classArgs : PyType → List PyType
  | .alias (.cls _) args => args
  | _ => []

-- Classes may be applied so wherever they are written.
theorem applied_of_reachable [UnicodeData] {program : Program} {start : Context → PyType → Prop} {types : List PyType}
    (hstart : ∀ context pyType, start context pyType → context = topLevel ∧ pyType ∈ types)
    (h : ∀ written ∈ reachable program types, ∀ arg ∈ classArgs written, Simple arg) : Applied program start :=
  fun _ _ _ _ hmet _ => h _ (known_met hstart hmet).1

def intType : PyType := .atom (.primitive .int)

def variableT : PyType := .atom (.typeVar "T")

def optional (pyType : PyType) : PyType := .alias (.union "Optional") [pyType, .atom .none]

def pageOf (pyType : PyType) : PyType := .alias (.cls 1) [pyType]

def pageHints : List (Str × PyType) :=
  [("items", .alias .list [variableT]), ("first", optional variableT), ("next_page", optional (pageOf variableT))]

def optionalOrder : PyType := optional (.atom (.cls 0))

-- A page of orders, and the dataclass that is written for it.
def pageProgram : Program where
  classes := [
    ⟨"Order", "app", "Order", none, none, .dataclass [] [("id", intType)] ["id"]⟩,
    ⟨"Page", "app", "Page", none, none, .dataclass ["T"] pageHints ["items", "first", "next_page"]⟩,
    ⟨"OrderPage", "app", "OrderPage", none, none,
      .dataclass [] [("items", .alias .list [optionalOrder]), ("first", optionalOrder),
        ("next_page", optional (pageOf optionalOrder))] ["items", "first", "next_page"]⟩]
  aliasRepr := fun _ => []

-- An endpoint that takes pages of orders, and one that takes the dataclass written for them.
def pageRegistrations : Registrations :=
  ⟨[⟨"orders:page", "", pageOf optionalOrder, .noPayload⟩, ⟨"orders:all", "", .atom (.cls 2), .noPayload⟩], [], []⟩

theorem apart_pages : letI := UnicodeData.ascii; Apart pageProgram pageRegistrations.starts := by
  let _ := UnicodeData.ascii
  apply apart_of_noRootModels
  simp [pageProgram]

theorem hoists_pages {key : PyType} : letI := UnicodeData.ascii
    Hoists pageProgram pageRegistrations.starts key →
      key = pageOf optionalOrder ∨ key = .atom (.cls 0) ∨ key = .atom (.cls 2) := by
  let _ := UnicodeData.ascii
  intro h
  have hderived : ∃ requests components,
      deriveEntries pageProgram 6 (pageRegistrations.declared .requests) [] = .ok (requests, components) ∧
        keysOf components = [pageOf optionalOrder, .atom (.cls 0), .atom (.cls 2)] := ⟨_, _, rfl, rfl⟩
  obtain ⟨requests, components, hrequests, hkeys⟩ := hderived
  obtain ⟨outlined, hcatalogued, -⟩ :=
    @deriveDocument_eq _ pageProgram 6 (fun _ => []) pageRegistrations _ _ _ _ _ _ hrequests rfl rfl
  rw [hcatalogued.hoists_iff apart_pages, hkeys] at h
  simpa using h

theorem qualifies_pages : letI := UnicodeData.ascii; Qualifies pageProgram pageRegistrations.starts := by
  let _ := UnicodeData.ascii
  intro a b ha hb hname _
  rcases hoists_pages ha with rfl | rfl | rfl <;> rcases hoists_pages hb with rfl | rfl | rfl <;>
    first | rfl | exact absurd hname (by decide)

theorem encodes_pages : letI := UnicodeData.ascii; Encodes pageProgram pageRegistrations.starts := by
  let _ := UnicodeData.ascii
  intro context pyType key inner properties hmet hrule hcontent
  rcases hoists_pages ⟨context, pyType, hmet, hrule⟩ with rfl | rfl | rfl
  · rw [content_dataclass rfl rfl starts_types hmet hrule] at hcontent
    cases hcontent
    decide
  · rw [content_dataclass rfl rfl starts_types hmet hrule] at hcontent
    cases hcontent
    decide
  · rw [content_dataclass rfl rfl starts_types hmet hrule] at hcontent
    cases hcontent
    decide

theorem orderFree_pages : letI := UnicodeData.ascii
    OrderFree pageProgram (fun _ => []) pageRegistrations := by
  let _ := UnicodeData.ascii
  have happlied : Applied pageProgram pageRegistrations.starts := applied_of_reachable starts_types (by decide)
  refine orderFree_of_applied happlied ?_ apart_pages qualifies_pages encodes_pages
  intro member
  cases member <;> decide

end Sample

end Benzene.Contract.Derivation
