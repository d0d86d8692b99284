import Benzene.Contract.Contexts
import Benzene.Contract.Inhabits
import Mathlib.Data.List.Sections

namespace Benzene.Contract.Derivation

open Benzene.Data

section Parts

-- What a type annotates or is applied to.
inductive Part : PyType → PyType → Prop
  | base {base : PyType} {metadata : List Metadata} : Part (.annotated base metadata) base
  | arg {origin : Origin} {args : List PyType} {arg : PyType} (h : arg ∈ args) : Part (.alias origin args) arg

variable {pyType other : PyType}

theorem Part.sizeOf_lt (h : Part pyType other) : sizeOf other < sizeOf pyType := by
  cases h with
  | base =>
      rw [PyType.annotated.sizeOf_spec]
      omega
  | arg hmem =>
      have hlt := List.sizeOf_lt_of_mem hmem
      rw [PyType.alias.sizeOf_spec]
      omega

theorem Part.closed (h : Part pyType other) (hclosed : typeVars pyType = []) : typeVars other = [] := by
  cases h with
  | base => exact hclosed
  | arg hmem =>
      apply List.eq_nil_iff_forall_not_mem.mpr
      intro name hname
      have hargs : name ∈ argTypeVars _ := mem_argTypeVars.mpr ⟨other, hmem, hname⟩
      change argTypeVars _ = [] at hclosed
      rw [hclosed] at hargs
      cases hargs

-- A type's parts before the type.
theorem PyType.parts_induction {motive : PyType → Prop}
    (h : ∀ pyType, (∀ other, Part pyType other → motive other) → motive pyType) (pyType : PyType) : motive pyType := by
  induction hsize : sizeOf pyType using Nat.strong_induction_on generalizing pyType with
  | _ size ih =>
      apply h
      intro other hpart
      exact ih (sizeOf other) (hsize ▸ hpart.sizeOf_lt) other rfl

mutual

def subterms : PyType → List PyType
  | .atom atom => [.atom atom]
  | .annotated base metadata => .annotated base metadata :: subterms base
  | .alias origin args => .alias origin args :: argSubterms args

def argSubterms : List PyType → List PyType
  | [] => []
  | arg :: rest => subterms arg ++ argSubterms rest

end

theorem self_mem_subterms (pyType : PyType) : pyType ∈ subterms pyType := by
  rcases pyType with atom | ⟨base, metadata⟩ | ⟨origin, args⟩
  · exact List.mem_singleton_self _
  · exact List.mem_cons_self
  · exact List.mem_cons_self

theorem mem_argSubterms {args : List PyType} : pyType ∈ argSubterms args ↔ ∃ arg ∈ args, pyType ∈ subterms arg := by
  induction args with
  | nil => simp [argSubterms]
  | cons arg rest ih => simp [argSubterms, ih]

theorem part_mem_subterms (whole : PyType) (hmem : pyType ∈ subterms whole) (h : Part pyType other) :
    other ∈ subterms whole := by
  induction whole using PyType.parts_induction with
  | h whole ih =>
      rcases whole with atom | ⟨base, metadata⟩ | ⟨origin, args⟩
      · cases List.mem_singleton.mp hmem
        cases h
      · rcases List.mem_cons.mp hmem with rfl | hmem
        · cases h
          exact List.mem_cons_of_mem _ (self_mem_subterms _)
        · exact List.mem_cons_of_mem _ (ih base .base hmem)
      · rcases List.mem_cons.mp hmem with rfl | hmem
        · cases h with
          | arg harg => exact List.mem_cons_of_mem _ (mem_argSubterms.mpr ⟨other, harg, self_mem_subterms other⟩)
        · obtain ⟨arg, harg, hmem⟩ := mem_argSubterms.mp hmem
          exact List.mem_cons_of_mem _ (mem_argSubterms.mpr ⟨arg, harg, ih arg (.arg harg) hmem⟩)

end Parts

section Rules

variable {program : Program} {context inner : Context} {pyType other : PyType} {wrap : Wrap}

theorem arrayRule_part {args : List PyType} {origin : Origin} (h : arrayRule context args = .within inner other wrap) :
    inner = context ∧ Part (.alias origin args) other := by
  unfold arrayRule at h
  split at h
  · rename_i item rest hargs
    cases h
    have hmem : other ∈ args.filter fun arg => arg ≠ .atom .ellipsis := by
      rw [hargs]
      exact List.mem_cons_self
    exact ⟨rfl, .arg (List.mem_filter.mp hmem).1⟩
  · cases h

-- A type is derived from one of its parts, or a root model from its root.
theorem rule_within_cases (h : rule program context pyType = .within inner other wrap) :
    (inner = context ∧ Part (resolveVar context.bindings pyType) other) ∨
      ∃ id, (program.classAt id).kind = .rootModel (some (other, false)) false ∧ id ∉ context.roots ∧
        inner = ⟨id :: context.roots, true, []⟩ := by
  unfold rule at h
  generalize resolveVar context.bindings pyType = resolved at h ⊢
  rcases resolved with atom | ⟨base, metadata⟩ | ⟨origin, args⟩
  · cases atom with
    | cls id =>
        dsimp only at h
        cases hkind : (program.classAt id).kind with
        | rootModel root serialized =>
            rw [hkind] at h
            dsimp only [rootModelRule] at h
            split at h
            · split at h
              · cases h
              · rename_i hroots
                cases h
                exact .inr ⟨id, hkind, hroots, rfl⟩
            · cases h
        | strEnum | intEnum | dataclass | model | plain =>
            rw [hkind] at h
            exact absurd h classRule_within
    | none | any | ellipsis | typeVar | primitive | path | literal | other => cases h
  · dsimp only at h
    split at h
    · cases h
    · cases h
      exact .inl ⟨rfl, .base⟩
  · cases origin with
    | cls id => exact absurd h classRule_within
    | union name =>
        dsimp only at h
        split at h
        · rename_i hargs
          have hmem : _ ∈ args.filter fun arg => arg ≠ .atom .none := hargs ▸ List.mem_singleton_self _
          cases h
          exact .inl ⟨rfl, .arg (List.mem_filter.mp hmem).1⟩
        · cases h
    | list | tuple | set | frozenset => exact .inl (arrayRule_part h)
    | dict =>
        dsimp only at h
        split at h
        · cases h
          exact .inl ⟨rfl, .arg (List.mem_cons_of_mem _ List.mem_cons_self)⟩
        · cases h

end Rules

section Outlines

variable {program : Program} {context : Context} {pyType : PyType}

-- A type is derived to something, if what it is derived from is.
theorem exists_outline_of_within (h : ∀ inner other wrap, rule program context pyType = .within inner other wrap →
    ∃ outline, Describes program inner other outline) : ∃ outline, Describes program context pyType outline := by
  cases hrule : rule program context pyType with
  | schema schema => exact ⟨_, .schema hrule⟩
  | component key => exact ⟨_, .component hrule⟩
  | within inner other wrap =>
      obtain ⟨outline, hdescribes⟩ := h inner other wrap hrule
      exact ⟨_, .within hrule hdescribes⟩

-- The classes that are not expanded yet.
def unexpanded (program : Program) (roots : List ClassId) : Nat :=
  ((List.range program.classes.length).filter fun id => id ∉ roots).length

theorem unexpanded_cons_lt {roots : List ClassId} {id : ClassId} (hid : id < program.classes.length)
    (hnew : id ∉ roots) : unexpanded program (id :: roots) < unexpanded program roots := by
  have hsplit : ((List.range program.classes.length).filter fun other => other ∉ id :: roots) =
      ((List.range program.classes.length).filter fun other => other ∉ roots).filter fun other => other ≠ id := by
    rw [List.filter_filter]
    apply List.filter_congr
    intro other _
    simp
  unfold unexpanded
  rw [hsplit]
  apply List.length_filter_lt_length_iff_exists.mpr
  exact ⟨id, List.mem_filter.mpr ⟨List.mem_range.mpr hid, decide_eq_true hnew⟩, by simp⟩

theorem classAt_lt {id : ClassId} (h : (program.classAt id).kind ≠ .plain) : id < program.classes.length := by
  by_contra hge
  unfold Program.classAt at h
  rw [List.getElem?_eq_none (Nat.le_of_not_lt hge)] at h
  exact h rfl

-- The type variables stand for types that are looked up no further.
def SimpleBindings (bindings : Bindings) : Prop := ∀ entry ∈ bindings, Simple entry.2

theorem simpleBindings_nil : SimpleBindings [] := fun _ hentry => nomatch hentry

-- A variable stands for a variable that is not bound, or for a type without any.
theorem resolveVar_cases {bindings : Bindings} (h : SimpleBindings bindings) (pyType : PyType) :
    resolveVar bindings pyType = pyType ∨ Simple (resolveVar bindings pyType) := by
  unfold resolveVar
  split
  · rename_i name
    cases hget : Entries.get? name bindings with
    | none => exact .inr (.inr rfl)
    | some bound => exact .inr (h _ (Entries.mem_of_get? hget))
  · exact .inl rfl

theorem rule_of_resolveVar {other : PyType}
    (h : resolveVar context.bindings pyType = resolveVar context.bindings other) :
    rule program context pyType = rule program context other := by
  unfold rule
  rw [h]

theorem resolveVar_closed (bindings : Bindings) (h : typeVars pyType = []) : resolveVar bindings pyType = pyType := by
  unfold resolveVar
  split
  · cases h
  · rfl

-- A type without variables is derived from types without variables, each a part of the one
-- before, until a root model is expanded.
theorem exists_outline_closed (hroot : ∀ id other, (program.classAt id).kind = .rootModel (some (other, false)) false →
      id ∉ context.roots → ∃ outline, Describes program ⟨id :: context.roots, true, []⟩ other outline)
    (h : typeVars pyType = []) : ∃ outline, Describes program context pyType outline := by
  induction pyType using PyType.parts_induction with
  | h pyType ih =>
      apply exists_outline_of_within
      intro inner other wrap hrule
      rcases rule_within_cases hrule with ⟨rfl, hpart⟩ | ⟨id, hkind, hid, rfl⟩
      · rw [resolveVar_closed _ h] at hpart
        exact ih other hpart (hpart.closed h)
      · exact hroot id other hkind hid

theorem exists_outline_within (hbindings : SimpleBindings context.bindings)
    (hroot : ∀ id other, (program.classAt id).kind = .rootModel (some (other, false)) false →
      id ∉ context.roots → ∃ outline, Describes program ⟨id :: context.roots, true, []⟩ other outline)
    (pyType : PyType) : ∃ outline, Describes program context pyType outline := by
  induction pyType using PyType.parts_induction with
  | h pyType ih =>
      apply exists_outline_of_within
      intro inner other wrap hrule
      rcases rule_within_cases hrule with ⟨rfl, hpart⟩ | ⟨id, hkind, hid, rfl⟩
      · rcases resolveVar_cases hbindings pyType with hself | hsimple
        · exact ih other (hself ▸ hpart)
        · generalize resolveVar inner.bindings pyType = resolved at hpart hsimple
          rcases hsimple with ⟨name, rfl⟩ | hclosed
          · cases hpart
          · exact exists_outline_closed hroot (hpart.closed hclosed)
      · exact hroot id other hkind hid

-- Where no variable stands for a type that has to be looked up further, every type is derived to
-- something: no root model is expanded inside itself.
theorem exists_outline (hbindings : SimpleBindings context.bindings) (pyType : PyType) :
    ∃ outline, Describes program context pyType outline := by
  induction hcount : unexpanded program context.roots using Nat.strong_induction_on generalizing context pyType with
  | _ count ih =>
      apply exists_outline_within hbindings
      intro id other hkind hid
      have hlt : unexpanded program (id :: context.roots) < count := by
        rw [← hcount]
        apply unexpanded_cons_lt _ hid
        apply classAt_lt
        rw [hkind]
        nofun
      exact ih _ hlt simpleBindings_nil other rfl

end Outlines

section Universe

-- The types that a class is written with.
def kindTypes : ClassKind → List PyType
  | .dataclass _ hints _ => hints.map Prod.snd
  | .model fields computed _ => (fields.map fun info => info.annotationType) ++
      computed.filterMap fun info => info.returnType
  | .rootModel root _ => root.toList.map Prod.fst
  | .strEnum _ | .intEnum _ | .plain => []

-- The types that may be met from some types.
def reachable (program : Program) (types : List PyType) : List PyType :=
  (types ++ PyType.atom .any :: program.classes.flatMap fun definition => kindTypes definition.kind).flatMap subterms

-- The generic types that may be hoisted, by the types that their arguments may be.
def instances (known : List PyType) : PyType → List PyType
  | .alias origin args => ((args.map fun _ => known).sections).map (.alias origin)
  | .atom _ | .annotated _ _ => []

def hoistable (known : List PyType) : List PyType := known ++ known.flatMap (instances known)

variable {program : Program} {types : List PyType} {context : Context} {pyType other : PyType}

theorem mem_reachable (h : pyType ∈ types ++ PyType.atom .any :: program.classes.flatMap fun definition =>
    kindTypes definition.kind) : pyType ∈ reachable program types :=
  List.mem_flatMap.mpr ⟨pyType, h, self_mem_subterms pyType⟩

theorem part_mem_reachable (hmem : pyType ∈ reachable program types) (h : Part pyType other) :
    other ∈ reachable program types := by
  obtain ⟨whole, hwhole, hmem⟩ := List.mem_flatMap.mp hmem
  exact List.mem_flatMap.mpr ⟨whole, hwhole, part_mem_subterms whole hmem h⟩

theorem any_mem_reachable : .atom .any ∈ reachable program types :=
  mem_reachable (List.mem_append_right _ List.mem_cons_self)

theorem kind_mem_reachable (id : ClassId) (h : pyType ∈ kindTypes (program.classAt id).kind) :
    pyType ∈ reachable program types := by
  apply mem_reachable
  apply List.mem_append_right
  apply List.mem_cons_of_mem
  unfold Program.classAt at h
  cases hclass : program.classes[id]? with
  | none =>
      rw [hclass] at h
      cases h
  | some definition =>
      rw [hclass] at h
      exact List.mem_flatMap.mpr ⟨definition, List.mem_of_getElem? hclass, h⟩

-- A type is met where the type variables stand for types that may be met.
def Known (program : Program) (types : List PyType) (context : Context) (pyType : PyType) : Prop :=
  pyType ∈ reachable program types ∧ ∀ entry ∈ context.bindings, entry.2 ∈ reachable program types

theorem Known.resolveVar (h : Known program types context pyType) :
    resolveVar context.bindings pyType ∈ reachable program types := by
  unfold Derivation.resolveVar
  split
  · rename_i name
    cases hget : Entries.get? name context.bindings with
    | none => exact any_mem_reachable
    | some bound => exact h.2 _ (Entries.mem_of_get? hget)
  · exact h.1

theorem Known.resolveArg (h : Known program types context pyType) :
    resolveArg context.bindings pyType ∈ reachable program types := by
  unfold Derivation.resolveArg
  split
  · rename_i name
    cases hget : Entries.get? name context.bindings with
    | none => exact h.1
    | some bound => exact h.2 _ (Entries.mem_of_get? hget)
  · exact h.1

theorem Known.within {inner : Context} {wrap : Wrap} (h : Known program types context pyType)
    (hrule : rule program context pyType = .within inner other wrap) : Known program types inner other := by
  rcases rule_within_cases hrule with ⟨rfl, hpart⟩ | ⟨id, hkind, -, rfl⟩
  · exact ⟨part_mem_reachable h.resolveVar hpart, h.2⟩
  · refine ⟨kind_mem_reachable id ?_, fun entry hentry => nomatch hentry⟩
    rw [hkind]
    exact List.mem_singleton_self other

-- A hoisted type's arguments are known.
theorem Known.typeArgs (h : Known program types context pyType) {arg : PyType}
    (harg : arg ∈ typeArgs (resolveAlias context.bindings (Derivation.resolveVar context.bindings pyType))) :
    arg ∈ reachable program types := by
  have hresolved := h.resolveVar
  generalize Derivation.resolveVar context.bindings pyType = resolved at harg hresolved
  rcases resolved with atom | ⟨base, metadata⟩ | ⟨origin, args⟩
  · cases harg
  · cases harg
  · rw [resolveAlias_alias] at harg
    obtain ⟨source, hsource, rfl⟩ := List.mem_map.mp harg
    exact Known.resolveArg ⟨part_mem_reachable hresolved (.arg hsource), h.2⟩

theorem Known.hoistable (h : Known program types context pyType) :
    resolveAlias context.bindings (Derivation.resolveVar context.bindings pyType) ∈
      hoistable (reachable program types) := by
  have hresolved := h.resolveVar
  have hargs := fun arg => @Known.typeArgs program types context pyType h arg
  generalize Derivation.resolveVar context.bindings pyType = resolved at hargs hresolved ⊢
  rcases resolved with atom | ⟨base, metadata⟩ | ⟨origin, args⟩
  · exact List.mem_append_left _ hresolved
  · exact List.mem_append_left _ hresolved
  · rw [resolveAlias_alias] at hargs ⊢
    apply List.mem_append_right
    apply List.mem_flatMap.mpr
    refine ⟨.alias origin args, hresolved, List.mem_map_of_mem (List.mem_sections.mpr ?_)⟩
    rw [List.forall₂_map_left_iff, List.forall₂_map_right_iff, List.forall₂_same]
    intro arg harg
    exact hargs _ (List.mem_map_of_mem harg)

end Universe

section Deriving

variable [UnicodeData] {program : Program} {start : Context → PyType → Prop} {types : List PyType} {context : Context}
  {pyType : PyType}

theorem Known.property {key inner : PyType} {record : Context} {properties : List Property} {property : Property}
    (h : Known program types context pyType) (hrule : rule program context pyType = .component key)
    (hcontent : content program context key = .record record properties) (hproperty : property ∈ properties)
    (htype : property.pyType = some inner) : Known program types record inner := by
  obtain ⟨rfl, -, -⟩ := rule_component_iff.mp hrule
  have hargs := fun arg => @Known.typeArgs program types context pyType h arg
  generalize resolveAlias context.bindings (Derivation.resolveVar context.bindings pyType) = key at hargs hcontent
  unfold content at hcontent
  cases hdefinition : definition key with
  | none =>
      rw [hdefinition] at hcontent
      cases hcontent
  | some id =>
      rw [hdefinition] at hcontent
      dsimp only [Option.map_some] at hcontent
      cases hkind : (program.classAt id).kind with
      | dataclass parameters hints fields =>
          rw [hkind] at hcontent
          cases hcontent
          refine ⟨?_, fun entry hentry => hargs _ (List.of_mem_zip hentry).2⟩
          obtain ⟨name, -, rfl⟩ := List.mem_map.mp hproperty
          cases htype
          cases hget : Entries.get? name hints with
          | none => exact any_mem_reachable
          | some hint =>
              apply kind_mem_reachable id
              rw [hkind]
              exact List.mem_map_of_mem (Entries.mem_of_get? hget)
      | model fields computed serialized =>
          rw [hkind] at hcontent
          cases hcontent
          refine ⟨?_, fun _ hentry => nomatch hentry⟩
          apply kind_mem_reachable id
          rw [hkind]
          rcases List.mem_append.mp hproperty with hproperty | hproperty
          · obtain ⟨info, hinfo, rfl⟩ := List.mem_map.mp hproperty
            dsimp only at htype
            split at htype
            · cases htype
            · cases htype
              exact List.mem_append_left _ (List.mem_map_of_mem (List.mem_filter.mp hinfo).1)
          · obtain ⟨info, hinfo, rfl⟩ := List.mem_map.mp hproperty
            dsimp only at htype
            split at htype
            · cases htype
            · exact List.mem_append_right _ (List.mem_filterMap.mpr ⟨info, hinfo, htype⟩)
      | strEnum | intEnum | rootModel | plain =>
          rw [hkind] at hcontent
          cases hcontent

theorem known_met (hstart : ∀ context pyType, start context pyType → context = topLevel ∧ pyType ∈ types)
    (h : Met program start context pyType) : Known program types context pyType := by
  induction h with
  | start h =>
      obtain ⟨rfl, hmem⟩ := hstart _ _ h
      exact ⟨mem_reachable (List.mem_append_left _ hmem), fun _ hentry => nomatch hentry⟩
  | within _ hrule ih => exact ih.within hrule
  | property _ hrule hcontent hproperty htype ih => exact ih.property hrule hcontent hproperty htype

-- However deep generic types are applied to each other, the types that are hoisted are finitely
-- many: an argument is looked up as it stands. So a derivation comes to an end once every type that
-- is met is derived to something.
theorem Grounded.derives (hgrounded : Grounded program start)
    (hstart : ∀ context pyType, start context pyType → context = topLevel ∧ pyType ∈ types) (n : Nat) :
    Derives program start (hoistable (reachable program types)) n := by
  apply Derivation.derives _ hgrounded
  rintro key ⟨context, pyType, hmet, hrule⟩
  obtain ⟨rfl, -, -⟩ := rule_component_iff.mp hrule
  exact (known_met hstart hmet).hoistable

-- Outside models no root model is being expanded.
theorem roots_met (hstart : ∀ context pyType, start context pyType → context = topLevel ∧ pyType ∈ types)
    (h : Met program start context pyType) : context.inModel = false → context.roots = [] := by
  induction h with
  | start h =>
      obtain ⟨rfl, -⟩ := hstart _ _ h
      exact fun _ => rfl
  | within _ hrule ih =>
      rcases rule_within_cases hrule with ⟨rfl, -⟩ | ⟨id, -, -, rfl⟩
      · exact ih
      · nofun
  | property _ _ hcontent _ _ ih =>
      unfold content at hcontent
      split at hcontent
      · cases hcontent
      · cases hcontent
      · cases hcontent
        nofun
      · cases hcontent
        exact ih
      · cases hcontent

end Deriving

end Benzene.Contract.Derivation
