import Benzene.Contract.Published

namespace Benzene.Contract.Derivation

open Benzene.Data
open Benzene.Mesh (Member)

section Roots

variable (program : Program)

-- The root model that a type is.
def rootModel? (context : Context) (pyType : PyType) : Option ClassId :=
  match resolveVar context.bindings pyType with
  | .atom (.cls id) =>
      match (program.classAt id).kind with
      | .rootModel _ _ => some id
      | _ => none
  | _ => none

-- The types met on the way from a type to what it is derived to.
inductive Chain : Context → PyType → Context → PyType → Prop
  | here {context : Context} {pyType : PyType} : Chain context pyType context pyType
  | there {context inner last : Context} {pyType other lastType : PyType} {wrap : Wrap}
      (hrule : rule program context pyType = .within inner other wrap) (h : Chain inner other last lastType) :
      Chain context pyType last lastType

-- A context inside root models that are being expanded.
def Context.under (context : Context) (outer : List ClassId) : Context :=
  ⟨context.roots ++ outer, context.inModel, context.bindings⟩

def Rule.under (outer : List ClassId) : Rule → Rule
  | .within inner pyType wrap => .within (inner.under outer) pyType wrap
  | rule => rule

def Content.under (outer : List ClassId) : Content → Content
  | .record inner properties => .record (inner.under outer) properties
  | content => content

variable {program} {context : Context} {pyType key : PyType} {outer : List ClassId}

theorem arrayRule_under (args : List PyType) :
    arrayRule (context.under outer) args = (arrayRule context args).under outer := by
  unfold arrayRule
  split <;> rfl

theorem classRule_under :
    classRule program (context.under outer) pyType = (classRule program context pyType).under outer := by
  unfold classRule Context.under
  dsimp only
  split
  · rfl
  · split <;> rfl

theorem rootModelRule_under {id : ClassId} (h : id ∉ outer) (root : Option (PyType × Bool)) (serialized : Bool) :
    rootModelRule (context.under outer) id root serialized =
      (rootModelRule context id root serialized).under outer := by
  unfold rootModelRule Context.under
  split
  · by_cases hmem : id ∈ context.roots
    · rw [if_pos (List.mem_append_left _ hmem), if_pos hmem]
      rfl
    · rw [if_neg (by simp [hmem, h]), if_neg hmem]
      rfl
  · rfl

-- Root models further out matter only where one of them is met again.
theorem rule_under (h : ∀ id, rootModel? program context pyType = some id → id ∉ outer) :
    rule program (context.under outer) pyType = (rule program context pyType).under outer := by
  have hbindings : (context.under outer).bindings = context.bindings := rfl
  unfold rule
  unfold rootModel? at h
  rw [hbindings]
  generalize resolveVar context.bindings pyType = resolved at h ⊢
  rcases resolved with atom | ⟨base, metadata⟩ | ⟨origin, args⟩
  · cases atom with
    | cls id =>
        dsimp only at h ⊢
        cases hkind : (program.classAt id).kind with
        | rootModel root serialized =>
            rw [hkind] at h
            exact rootModelRule_under (h id rfl) root serialized
        | strEnum | intEnum | dataclass | model | plain => exact classRule_under
    | none | any | ellipsis | typeVar | primitive | path | literal | other => rfl
  · dsimp only
    split <;> rfl
  · cases origin with
    | union name =>
        dsimp only
        split <;> rfl
    | list | tuple | set | frozenset => exact arrayRule_under args
    | dict =>
        dsimp only
        split <;> rfl
    | cls id => exact classRule_under

theorem describes_under_iff {outline : Outline} (h : ∀ last lastType id,
      Chain program (context.under outer) pyType last lastType → rootModel? program last lastType = some id →
        id ∉ outer) :
    Describes program (context.under outer) pyType outline ↔ Describes program context pyType outline := by
  constructor
  · intro hdescribes
    generalize hfull : context.under outer = full at hdescribes
    induction hdescribes generalizing context with
    | @schema _ first _ hrule =>
        subst hfull
        have hhead : ∀ id, rootModel? program context first = some id → id ∉ outer := fun id hid => h _ _ id .here hid
        rw [rule_under hhead] at hrule
        cases hinner : rule program context first with
        | schema schema =>
            rw [hinner] at hrule
            cases hrule
            exact .schema hinner
        | within | component => rw [hinner] at hrule; cases hrule
    | @component _ first _ hrule =>
        subst hfull
        have hhead : ∀ id, rootModel? program context first = some id → id ∉ outer := fun id hid => h _ _ id .here hid
        rw [rule_under hhead] at hrule
        cases hinner : rule program context first with
        | component key =>
            rw [hinner] at hrule
            cases hrule
            exact .component hinner
        | within | schema => rw [hinner] at hrule; cases hrule
    | @within _ _ first _ _ _ hrule _ ih =>
        subst hfull
        have hhead : ∀ id, rootModel? program context first = some id → id ∉ outer := fun id hid => h _ _ id .here hid
        have hstep := hrule
        rw [rule_under hhead] at hrule
        cases hinner : rule program context first with
        | within inner other wrap =>
            rw [hinner] at hrule
            cases hrule
            exact .within hinner (ih (fun last lastType id hchain => h last lastType id (.there hstep hchain)) rfl)
        | component | schema => rw [hinner] at hrule; cases hrule
  · intro hdescribes
    induction hdescribes with
    | @schema context first _ hrule =>
        have hhead : ∀ id, rootModel? program context first = some id → id ∉ outer := fun id hid => h _ _ id .here hid
        apply Describes.schema
        rw [rule_under hhead, hrule]
        rfl
    | @component context first _ hrule =>
        have hhead : ∀ id, rootModel? program context first = some id → id ∉ outer := fun id hid => h _ _ id .here hid
        apply Describes.component
        rw [rule_under hhead, hrule]
        rfl
    | @within context _ first _ _ _ hrule _ ih =>
        have hhead : ∀ id, rootModel? program context first = some id → id ∉ outer := fun id hid => h _ _ id .here hid
        have hstep := rule_under hhead
        rw [hrule] at hstep
        exact .within hstep (ih fun last lastType id hchain => h last lastType id (.there hstep hchain))

theorem definition_resolveAlias (bindings : Bindings) (pyType : PyType) :
    definition (resolveAlias bindings pyType) = definition pyType := by
  rcases pyType with atom | ⟨base, metadata⟩ | ⟨origin, args⟩
  · rfl
  · rfl
  · show definition (if args = [] ∨ bindings = [] then .alias origin args else .alias origin _) =
      definition (.alias origin args)
    split
    · rfl
    · cases origin <;> rfl

theorem classRule_component_iff : classRule program context pyType = .component key ↔
    key = resolveAlias context.bindings pyType ∧ isNamed program pyType = true ∧
      (context.inModel && isStdlibDataclass program pyType) = false := by
  unfold classRule
  cases context.inModel && isStdlibDataclass program pyType with
  | true => simp
  | false =>
      cases isNamed program pyType with
      | true => simp [eq_comm]
      | false => simp

theorem classRule_within {inner : Context} {other : PyType} {wrap : Wrap} :
    classRule program context pyType ≠ .within inner other wrap := by
  unfold classRule
  split
  · simp
  · split <;> simp

-- What a component stands for: a named type, unless it is a dataclass inside a model.
theorem rule_component_iff : rule program context pyType = .component key ↔
    key = resolveAlias context.bindings (resolveVar context.bindings pyType) ∧
      isNamed program (resolveVar context.bindings pyType) = true ∧
      (context.inModel && isStdlibDataclass program (resolveVar context.bindings pyType)) = false := by
  rw [← classRule_component_iff]
  unfold rule
  generalize resolveVar context.bindings pyType = resolved
  rcases resolved with atom | ⟨base, metadata⟩ | ⟨origin, args⟩
  · cases atom with
    | cls id =>
        dsimp only
        cases hkind : (program.classAt id).kind with
        | rootModel root serialized =>
            have hnamed : isNamed program (.atom (.cls id)) = false := by
              unfold isNamed definition
              dsimp only
              rw [hkind]
            rw [classRule_component_iff, hnamed]
            dsimp only [rootModelRule]
            split
            · split <;> simp
            · simp
        | strEnum | intEnum | dataclass | model | plain => exact Iff.rfl
    | none | any | ellipsis | typeVar | primitive | path | literal | other =>
        rw [classRule_component_iff]
        simp [isNamed, definition]
  · rw [classRule_component_iff]
    dsimp only
    split <;> simp [isNamed, definition]
  · cases origin with
    | cls id => exact Iff.rfl
    | union name =>
        rw [classRule_component_iff]
        dsimp only
        split <;> simp [isNamed, definition]
    | list | tuple | set | frozenset =>
        rw [classRule_component_iff]
        dsimp only [arrayRule]
        split <;> simp [isNamed, definition]
    | dict =>
        rw [classRule_component_iff]
        dsimp only
        split <;> simp [isNamed, definition]

variable [UnicodeData]

-- A record is derived inside the root models that are being expanded, and is otherwise
-- what it is anywhere.
theorem content_under (h : rule program context pyType = .component key) :
    content program context key = (content program topLevel key).under context.roots := by
  obtain ⟨rfl, -, hmodel⟩ := rule_component_iff.mp h
  generalize resolveVar context.bindings pyType = resolved at hmodel ⊢
  unfold content
  rw [definition_resolveAlias]
  unfold isStdlibDataclass at hmodel
  cases hdefinition : definition resolved with
  | none => rfl
  | some id =>
      rw [hdefinition] at hmodel
      dsimp only [Option.map_some]
      cases hkind : (program.classAt id).kind with
      | strEnum | intEnum | model | rootModel | plain => rfl
      | dataclass parameters hints fields =>
          dsimp only at hmodel ⊢
          rw [hkind] at hmodel
          dsimp only at hmodel
          rw [Bool.and_true] at hmodel
          rw [hmodel]
          rfl

end Roots

section Apart

variable [UnicodeData] (program : Program) (start : Context → PyType → Prop)

-- No root model is met again, inside a model, while it is being expanded.
def Apart : Prop :=
  ∀ context pyType key inner properties property other last lastType id, Met program start context pyType →
    rule program context pyType = .component key → content program context key = .record inner properties →
    property ∈ properties → property.pyType = some other → Chain program inner other last lastType →
    rootModel? program last lastType = some id → id ∉ inner.roots

variable {program start} {context : Context} {pyType key : PyType}

omit [UnicodeData] in
theorem rootModel?_kind {id : ClassId} (h : rootModel? program context pyType = some id) :
    ∃ root serialized, (program.classAt id).kind = .rootModel root serialized := by
  unfold rootModel? at h
  split at h
  · split at h
    · rename_i hkind
      cases h
      exact ⟨_, _, hkind⟩
    · cases h
  · cases h

-- A program may have no root models at all.
theorem apart_of_noRootModels (h : ∀ definition ∈ program.classes, ∀ root serialized,
    definition.kind ≠ .rootModel root serialized) : Apart program start := by
  intro context pyType key inner properties property other last lastType id _ _ _ _ _ _ hroot
  obtain ⟨root, serialized, hkind⟩ := rootModel?_kind hroot
  unfold Program.classAt at hkind
  cases hclass : program.classes[id]? with
  | none =>
      rw [hclass] at hkind
      cases hkind
  | some definition =>
      rw [hclass] at hkind
      exact absurd hkind (h definition (List.mem_of_getElem? hclass) root serialized)

-- A component is what it is, wherever it is met first.
theorem Apart.content_iff (h : Apart program start) (hmet : Met program start context pyType)
    (hrule : rule program context pyType = .component key) {blueprint : Blueprint} :
    DescribesContent program (content program context key) blueprint ↔
      DescribesContent program (content program topLevel key) blueprint := by
  have hunder := content_under hrule
  rw [hunder]
  cases hcontent : content program topLevel key with
  | schema schema => exact Iff.rfl
  | record inner properties =>
      rw [hcontent] at hunder
      have hproperty : ∀ property ∈ properties, ∀ described,
          DescribesProperty program (inner.under context.roots) property described ↔
            DescribesProperty program inner property described := by
        intro property hproperty described
        unfold DescribesProperty
        cases htype : property.pyType with
        | none => exact Iff.rfl
        | some other =>
            apply and_congr_right
            intro _
            apply describes_under_iff
            intro last lastType id hchain hid
            have hroots := h context pyType key _ properties property other last lastType id hmet hrule hunder hproperty
              htype hchain hid
            exact fun hmem => hroots (List.mem_append_right _ hmem)
      have hall : ∀ described,
          List.Forall₂ (DescribesProperty program (inner.under context.roots)) properties described ↔
            List.Forall₂ (DescribesProperty program inner) properties described := by
        clear hunder hcontent
        induction properties with
        | nil =>
            intro described
            rw [List.forall₂_nil_left_iff, List.forall₂_nil_left_iff]
        | cons property rest ih =>
            intro described
            have hrest := ih fun other hother => hproperty other (List.mem_cons_of_mem _ hother)
            constructor
            · intro hforall
              cases hforall with
              | cons hfirst hothers =>
                  exact .cons ((hproperty property List.mem_cons_self _).mp hfirst) ((hrest _).mp hothers)
            · intro hforall
              cases hforall with
              | cons hfirst hothers =>
                  exact .cons ((hproperty property List.mem_cons_self _).mpr hfirst) ((hrest _).mpr hothers)
      constructor
      · intro hdescribes
        cases hdescribes with
        | record hforall => exact .record ((hall _).mp hforall)
      · intro hdescribes
        cases hdescribes with
        | record hforall => exact .record ((hall _).mpr hforall)

end Apart

section Hoisted

variable [UnicodeData]

-- A type that is hoisted into a component.
def Hoists (program : Program) (start : Context → PyType → Prop) (key : PyType) : Prop :=
  ∃ context pyType, Met program start context pyType ∧ rule program context pyType = .component key

variable {program : Program} {registrations : Registrations} {components : List Component}
  {outlined : Member → List Outlined} {context : Context} {pyType key : PyType}

theorem Catalogued.hoists (h : Catalogued program registrations components outlined) {component : Component}
    (hmem : component ∈ components) : Hoists program registrations.starts component.key := by
  obtain ⟨⟨-, -, context, pyType, blueprint, hmet, hrule, -⟩, -⟩ := h.adds.settled hmem
  exact ⟨context, pyType, hmet, hrule⟩

-- Whatever is met was derived, if what is met first was.
theorem Adds.describes {start : Context → PyType → Prop} {refs : List PyType}
    (h : Adds program start [] components refs) (hapart : Apart program start)
    (hstart : ∀ context pyType, start context pyType → ∃ outline, Describes program context pyType outline ∧
      ∀ key ∈ outline.ending.keys, key ∈ keysOf components) (hmet : Met program start context pyType) :
    ∃ outline, Describes program context pyType outline ∧ ∀ key ∈ outline.ending.keys, key ∈ keysOf components := by
  induction hmet with
  | start hfirst => exact hstart _ _ hfirst
  | within _ hrule ih =>
      obtain ⟨outline, hdescribes, hkeys⟩ := ih
      obtain ⟨rest, hinner, rfl⟩ := hdescribes.of_within hrule
      exact ⟨rest, hinner, hkeys⟩
  | @property context inner pyType key other properties property hmet hrule hcontent hproperty htype ih =>
      obtain ⟨outline, hdescribes, hkeys⟩ := ih
      rw [hdescribes.of_component hrule] at hkeys
      obtain ⟨component, hmem, rfl⟩ := mem_keysOf.mp (hkeys _ (List.mem_singleton_self _))
      obtain ⟨⟨-, -, first, firstType, blueprint, hfirst, hfirstRule, hfirstContent, -, hblueprint⟩, -⟩ :=
        h.settled hmem
      have hsame := (hapart.content_iff hmet hrule).mpr ((hapart.content_iff hfirst hfirstRule).mp hfirstContent)
      rw [hcontent] at hsame
      cases hsame with
      | record hforall =>
          obtain ⟨described, hdescribed, -, hdescribes⟩ := exists_of_mem_left hforall hproperty
          rw [htype] at hdescribes
          exact ⟨described.2, hdescribes, fun key hkey =>
            hblueprint key (List.mem_flatMap.mpr ⟨described, hdescribed, hkey⟩)⟩

theorem Catalogued.describes (h : Catalogued program registrations components outlined)
    (hapart : Apart program registrations.starts) (hmet : Met program registrations.starts context pyType) :
    ∃ outline, Describes program context pyType outline ∧ ∀ key ∈ outline.ending.keys, key ∈ keysOf components := by
  apply h.adds.describes hapart _ hmet
  rintro context pyType ⟨rfl, member, declared, hdeclared, htype⟩
  obtain ⟨entry, hentry, hdescribes⟩ := exists_of_mem_left (h.entries member) hdeclared
  have hkeys : ∀ key ∈ entry.keys, key ∈ keysOf components := fun key hkey =>
    h.keys member key (List.mem_flatMap.mpr ⟨entry, hentry, hkey⟩)
  rcases List.mem_cons.mp htype with rfl | htype
  · exact ⟨entry.payload, hdescribes.payload, fun key hkey => hkeys key (List.mem_append_left _ hkey)⟩
  · have hresponse := hdescribes.response
    rw [Option.mem_toList.mp htype] at hresponse
    cases houtline : entry.response with
    | none =>
        rw [houtline] at hresponse
        cases hresponse
    | some outline =>
        rw [houtline] at hresponse
        cases hresponse with
        | some hdescribesResponse =>
            refine ⟨outline, hdescribesResponse, fun key hkey => hkeys key (List.mem_append_right _ ?_)⟩
            rw [houtline]
            exact hkey

theorem Catalogued.hoists_iff (h : Catalogued program registrations components outlined)
    (hapart : Apart program registrations.starts) :
    Hoists program registrations.starts key ↔ key ∈ keysOf components := by
  constructor
  · rintro ⟨context, pyType, hmet, hrule⟩
    obtain ⟨outline, hdescribes, hkeys⟩ := h.describes hapart hmet
    cases hdescribes with
    | schema hrule' => rw [hrule] at hrule'; cases hrule'
    | within hrule' _ => rw [hrule] at hrule'; cases hrule'
    | component hrule' =>
        rw [hrule] at hrule'
        cases hrule'
        exact hkeys _ (List.mem_singleton_self _)
  · intro hkey
    obtain ⟨component, hmem, rfl⟩ := mem_keysOf.mp hkey
    exact h.hoists hmem

end Hoisted

section Fuel

-- What one computation gives, the other gives too.
def Extends (recur recur' : Context → PyType → Deriving Derived) : Prop :=
  ∀ {context pyType before result}, recur context pyType before = .ok result → recur' context pyType before = .ok result

variable {recur recur' : Context → PyType → Deriving Derived}

theorem Extends.properties (h : Extends recur recur') {context : Context} {properties : List Property}
    {before : List Component} {result : List (Property × Derived) × List Component}
    (hok : deriveProperties recur context properties before = .ok result) :
    deriveProperties recur' context properties before = .ok result := by
  induction properties generalizing before result with
  | nil => exact hok
  | cons property rest ih =>
      rw [deriveProperties_cons] at hok ⊢
      obtain ⟨first, hfirst, hok⟩ := Except.bind_eq_ok.mp hok
      obtain ⟨others, hothers, hok⟩ := Except.bind_eq_ok.mp hok
      apply Except.bind_eq_ok.mpr
      refine ⟨first, ?_, Except.bind_eq_ok.mpr ⟨others, ih hothers, hok⟩⟩
      cases htype : property.pyType with
      | none =>
          rw [htype] at hfirst
          exact hfirst
      | some pyType =>
          rw [htype] at hfirst
          exact h hfirst

theorem Extends.content (h : Extends recur recur') {content : Content} {before : List Component}
    {result : Derived × List Component} (hok : deriveContent recur content before = .ok result) :
    deriveContent recur' content before = .ok result := by
  cases content with
  | schema schema => exact hok
  | record context properties =>
      unfold deriveContent at hok ⊢
      obtain ⟨derived, hderived, hok⟩ := Except.bind_eq_ok.mp hok
      exact Except.bind_eq_ok.mpr ⟨derived, h.properties hderived, hok⟩

variable [UnicodeData] {program : Program}

theorem Extends.component (h : Extends recur recur') {context : Context} {key : PyType} {before : List Component}
    {result : Str × List Component} (hok : deriveComponent program recur context key before = .ok result) :
    deriveComponent program recur' context key before = .ok result := by
  unfold deriveComponent at hok ⊢
  cases hfind : before.find? fun component => component.key = key with
  | some component =>
      rw [hfind] at hok
      exact hok
  | none =>
      rw [hfind] at hok
      obtain ⟨derived, hderived, hok⟩ := Except.bind_eq_ok.mp hok
      exact Except.bind_eq_ok.mpr ⟨derived, h.content hderived, hok⟩

theorem extends_succ (fuel : Nat) : Extends (derive program fuel) (derive program (fuel + 1)) := by
  induction fuel with
  | zero =>
      intro context pyType before result hok
      cases hok
  | succ fuel ih =>
      intro context pyType before result hok
      unfold derive at hok ⊢
      cases hrule : rule program context pyType with
      | schema schema =>
          rw [hrule] at hok
          exact hok
      | within inner other wrap =>
          rw [hrule] at hok
          obtain ⟨derived, hderived, hok⟩ := Except.bind_eq_ok.mp hok
          exact Except.bind_eq_ok.mpr ⟨derived, ih hderived, hok⟩
      | component key =>
          rw [hrule] at hok
          obtain ⟨derived, hderived, hok⟩ := Except.bind_eq_ok.mp hok
          exact Except.bind_eq_ok.mpr ⟨derived, ih.component hderived, hok⟩

-- More fuel changes nothing.
theorem extends_le {fuel more : Nat} (h : fuel ≤ more) : Extends (derive program fuel) (derive program more) := by
  induction h with
  | refl => exact fun hok => hok
  | step _ ih => exact fun hok => extends_succ _ (ih hok)

variable {start : Context → PyType → Prop} {types : List PyType} {before : List Component}

-- The types that are still to be entered.
def missing (types : List PyType) (components : List Component) : Nat :=
  (types.filter fun key => key ∉ keysOf components).length

omit [UnicodeData] in
theorem missing_append_le (more : List Component) : missing types (before ++ more) ≤ missing types before := by
  unfold missing
  apply List.Sublist.length_le
  apply List.monotone_filter_right
  intro key hkey
  rw [decide_eq_true_eq] at hkey ⊢
  rw [keysOf_append] at hkey
  exact fun hmem => hkey (List.mem_append_left _ hmem)

omit [UnicodeData] in
theorem missing_enter_lt {component : Component} (htype : component.key ∈ types)
    (hnew : component.key ∉ keysOf before) : missing types (before ++ [component]) < missing types before := by
  have hsplit : (types.filter fun key => key ∉ keysOf (before ++ [component])) =
      (types.filter fun key => key ∉ keysOf before).filter fun key => key ≠ component.key := by
    rw [List.filter_filter]
    apply List.filter_congr
    intro key _
    rw [Bool.eq_iff_iff, Bool.and_eq_true, decide_eq_true_eq, decide_eq_true_eq, decide_eq_true_eq, keysOf_append]
    simp [keysOf, and_comm]
  unfold missing
  rw [hsplit]
  apply List.length_filter_lt_length_iff_exists.mpr
  refine ⟨component.key, List.mem_filter.mpr ⟨htype, decide_eq_true hnew⟩, ?_⟩
  simp

-- Every type that is met derives, once there is fuel enough.
def Derives (program : Program) (start : Context → PyType → Prop) (types : List PyType) (n : Nat) : Prop :=
  ∀ {before context pyType}, missing types before < n → Ordered before → Met program start context pyType →
    ∃ fuel result, derive program fuel context pyType before = .ok result

theorem Derives.properties {n : Nat} (h : Derives program start types n) {context : Context}
    {properties : List Property}
    (hmet : ∀ property ∈ properties, ∀ pyType, property.pyType = some pyType → Met program start context pyType)
    (hmissing : missing types before < n) (hbefore : Ordered before) :
    ∃ fuel result, deriveProperties (derive program fuel) context properties before = .ok result := by
  induction properties generalizing before with
  | nil => exact ⟨0, _, rfl⟩
  | cons property rest ih =>
      have hrest := fun other hother => hmet other (List.mem_cons_of_mem _ hother)
      cases htype : property.pyType with
      | none =>
          obtain ⟨fuel, others, hothers⟩ := ih hrest hmissing hbefore
          refine ⟨fuel, ((property, ([], [])) :: others.1, others.2), ?_⟩
          rw [deriveProperties_cons, htype]
          exact Except.bind_eq_ok.mpr ⟨(([], []), before), rfl, Except.bind_eq_ok.mpr ⟨others, hothers, rfl⟩⟩
      | some pyType =>
          have hproperty := hmet property List.mem_cons_self pyType htype
          obtain ⟨fuel, ⟨derived, middle⟩, hderived⟩ := h hmissing hbefore hproperty
          obtain ⟨outline, -, -, -, hadds⟩ := describing_derive fuel hproperty hbefore hderived
          obtain ⟨more, rfl, -⟩ := hadds.more
          have hle : missing types (before ++ more) ≤ missing types before := missing_append_le more
          obtain ⟨fuel', others, hothers⟩ := ih hrest (by omega) hadds.ordered
          refine ⟨max fuel fuel', ((property, derived) :: others.1, others.2), ?_⟩
          rw [deriveProperties_cons, htype]
          apply Except.bind_eq_ok.mpr
          refine ⟨(derived, before ++ more), extends_le (le_max_left _ _) hderived, ?_⟩
          exact Except.bind_eq_ok.mpr ⟨others, Extends.properties (extends_le (le_max_right fuel fuel')) hothers, rfl⟩

-- Every type that is met comes to a schema or to a component: none is looked up without end.
def Grounded (program : Program) (start : Context → PyType → Prop) : Prop :=
  ∀ context pyType, Met program start context pyType → ∃ outline, Describes program context pyType outline

-- With each type that is entered there are fewer to enter, and between two of them the
-- way from a type to what it is derived to is finite.
theorem derives (htypes : ∀ key, Hoists program start key → key ∈ types) (hgrounded : Grounded program start)
    (n : Nat) : Derives program start types n := by
  induction n with
  | zero =>
      intro before context pyType hmissing
      omega
  | succ n ih =>
      intro before context pyType hmissing hbefore hmet
      obtain ⟨outline, hdescribe⟩ := hgrounded context pyType hmet
      induction hdescribe with
      | @schema _ _ schema hrule =>
          refine ⟨1, ((schema, []), before), ?_⟩
          unfold derive
          rw [hrule]
      | @within _ _ _ _ wrap _ hrule _ ihInner =>
          obtain ⟨fuel, result, hresult⟩ := ihInner (.within hmet hrule)
          refine ⟨fuel + 1, ((wrap.apply result.1.1, result.1.2), result.2), ?_⟩
          unfold derive
          rw [hrule]
          exact Except.bind_eq_ok.mpr ⟨result, hresult, rfl⟩
      | @component context pyType key hrule =>
          suffices hcomponent : ∃ fuel result,
              deriveComponent program (derive program fuel) context key before = .ok result by
            obtain ⟨fuel, result, hresult⟩ := hcomponent
            refine ⟨fuel + 1, ((reference result.1, [key]), result.2), ?_⟩
            unfold derive
            rw [hrule]
            exact Except.bind_eq_ok.mpr ⟨result, hresult, rfl⟩
          cases hfind : before.find? fun component => component.key = key with
          | some component =>
              refine ⟨0, (component.token, before), ?_⟩
              unfold deriveComponent
              rw [hfind]
          | none =>
              have hnew : key ∉ keysOf before := by
                rw [← find?_isSome_iff, hfind]
                simp
              let entered : Component :=
                ⟨key, componentName program key, tokenAt before.length, qualified program key, [], []⟩
              have hlt : missing types (before ++ [entered]) < missing types before :=
                missing_enter_lt (htypes key ⟨context, pyType, hmet, hrule⟩) hnew
              have hordered : Ordered (before ++ [entered]) := hbefore.enter hnew rfl
              have hcontent : ∃ fuel result,
                  deriveContent (derive program fuel) (content program context key) (before ++ [entered]) =
                    .ok result := by
                cases hrecord : content program context key with
                | schema schema => exact ⟨0, _, rfl⟩
                | record inner properties =>
                    obtain ⟨fuel, result, hresult⟩ := ih.properties
                      (fun property hproperty other htype => .property hmet hrule hrecord hproperty htype)
                      (by omega) hordered
                    refine ⟨fuel, (derivedProperties result.1, result.2), ?_⟩
                    unfold deriveContent
                    exact Except.bind_eq_ok.mpr ⟨result, hresult, rfl⟩
              obtain ⟨fuel, result, hresult⟩ := hcontent
              refine ⟨fuel, (entered.token, fill key result.1 result.2), ?_⟩
              unfold deriveComponent
              rw [hfind]
              exact Except.bind_eq_ok.mpr ⟨result, hresult, rfl⟩

end Fuel

section Entries

variable [UnicodeData] {program : Program} {start : Context → PyType → Prop} {types : List PyType}
  {before : List Component}

theorem deriveEntry_le {fuel more : Nat} (h : fuel ≤ more) {entry : Declared} {result : DerivedEntry × List Component}
    (hok : deriveEntry program fuel entry before = .ok result) :
    deriveEntry program more entry before = .ok result := by
  unfold deriveEntry at hok ⊢
  obtain ⟨payload, hpayload, hok⟩ := Except.bind_eq_ok.mp hok
  apply Except.bind_eq_ok.mpr
  refine ⟨payload, extends_le h hpayload, ?_⟩
  cases hresponse : entry.response with
  | none =>
      rw [hresponse] at hok
      exact hok
  | some pyType =>
      rw [hresponse] at hok
      obtain ⟨response, hderived, hok⟩ := Except.bind_eq_ok.mp hok
      exact Except.bind_eq_ok.mpr ⟨response, extends_le h hderived, hok⟩

theorem deriveEntries_le {fuel more : Nat} (h : fuel ≤ more) {entries : List Declared}
    {result : List DerivedEntry × List Component} (hok : deriveEntries program fuel entries before = .ok result) :
    deriveEntries program more entries before = .ok result := by
  induction entries generalizing before result with
  | nil => exact hok
  | cons entry rest ih =>
      unfold deriveEntries at hok ⊢
      obtain ⟨first, hfirst, hok⟩ := Except.bind_eq_ok.mp hok
      obtain ⟨others, hothers, hok⟩ := Except.bind_eq_ok.mp hok
      exact Except.bind_eq_ok.mpr ⟨first, deriveEntry_le h hfirst, Except.bind_eq_ok.mpr ⟨others, ih hothers, hok⟩⟩

theorem Derives.entry (h : ∀ n, Derives program start types n) {entry : Declared}
    (hstart : ∀ pyType ∈ entry.types, start topLevel pyType) (hbefore : Ordered before) :
    ∃ fuel result, deriveEntry program fuel entry before = .ok result := by
  have hpayload : Met program start topLevel entry.payload := .start (hstart _ List.mem_cons_self)
  obtain ⟨fuel, ⟨payload, middle⟩, hderived⟩ := h _ (Nat.lt_succ_self _) hbefore hpayload
  obtain ⟨_, -, -, -, hadds⟩ := describing_derive fuel hpayload hbefore hderived
  cases hresponse : entry.response with
  | none =>
      refine ⟨fuel, (⟨entry, payload, none⟩, middle), ?_⟩
      unfold deriveEntry
      apply Except.bind_eq_ok.mpr
      refine ⟨(payload, middle), hderived, ?_⟩
      rw [hresponse]
      rfl
  | some pyType =>
      have hmet : Met program start topLevel pyType := by
        apply Met.start
        apply hstart
        unfold Declared.types
        rw [hresponse]
        exact List.mem_cons_of_mem _ (List.mem_singleton_self _)
      obtain ⟨fuel', ⟨response, last⟩, hderived'⟩ := h _ (Nat.lt_succ_self _) hadds.ordered hmet
      refine ⟨max fuel fuel', (⟨entry, payload, some response⟩, last), ?_⟩
      unfold deriveEntry
      apply Except.bind_eq_ok.mpr
      refine ⟨(payload, middle), extends_le (le_max_left _ _) hderived, ?_⟩
      rw [hresponse]
      exact Except.bind_eq_ok.mpr ⟨(response, last), extends_le (le_max_right _ _) hderived', rfl⟩

theorem Derives.entries (h : ∀ n, Derives program start types n) {entries : List Declared}
    (hstart : ∀ entry ∈ entries, ∀ pyType ∈ entry.types, start topLevel pyType) (hbefore : Ordered before) :
    ∃ fuel result, deriveEntries program fuel entries before = .ok result := by
  induction entries generalizing before with
  | nil => exact ⟨0, _, rfl⟩
  | cons entry rest ih =>
      have hfirst := hstart entry List.mem_cons_self
      obtain ⟨fuel, ⟨derived, middle⟩, hderived⟩ := Derives.entry h hfirst hbefore
      obtain ⟨_, -, -, -, hadds⟩ := describing_entry hfirst hbefore hderived
      obtain ⟨fuel', others, hothers⟩ :=
        ih (fun other hother => hstart other (List.mem_cons_of_mem _ hother)) hadds.ordered
      refine ⟨max fuel fuel', (derived :: others.1, others.2), ?_⟩
      unfold deriveEntries
      apply Except.bind_eq_ok.mpr
      refine ⟨(derived, middle), deriveEntry_le (le_max_left _ _) hderived, ?_⟩
      exact Except.bind_eq_ok.mpr ⟨others, deriveEntries_le (le_max_right _ _) hothers, rfl⟩

-- Registrations are derived, if what is met from them is, and more fuel changes nothing.
theorem Derives.document {registrations : Registrations} (h : ∀ n, Derives program registrations.starts types n)
    (mappings : Str × Str → List (Str × Str)) : ∃ enough components outlined,
      Catalogued program registrations components outlined ∧ ∀ fuel ≥ enough,
        deriveDocument program fuel mappings registrations =
          (finish components ((outlined .requests ++ outlined .events ++ outlined .sends).map Outlined.refs)).map
            (Outlined.published (componentName program) mappings outlined) := by
  have hstart : ∀ member, ∀ entry ∈ registrations.declared member, ∀ pyType ∈ entry.types,
      registrations.starts topLevel pyType :=
    fun member entry hentry pyType htype => ⟨rfl, member, entry, hentry, htype⟩
  obtain ⟨fuelR, ⟨requests, first⟩, hrequests⟩ := Derives.entries h (hstart .requests) ordered_nil
  obtain ⟨_, -, -, -, hfirst⟩ := describing_entries (hstart .requests) ordered_nil hrequests
  obtain ⟨fuelE, ⟨events, second⟩, hevents⟩ := Derives.entries h (hstart .events) hfirst.ordered
  obtain ⟨_, -, -, -, hsecond⟩ := describing_entries (hstart .events) hfirst.ordered hevents
  obtain ⟨fuelS, ⟨sends, components⟩, hsends⟩ := Derives.entries h (hstart .sends) hsecond.ordered
  have hR : fuelR ≤ max fuelR (max fuelE fuelS) := le_max_left _ _
  have hE : fuelE ≤ max fuelR (max fuelE fuelS) := by omega
  have hS : fuelS ≤ max fuelR (max fuelE fuelS) := by omega
  replace hrequests := deriveEntries_le hR hrequests
  replace hevents := deriveEntries_le hE hevents
  replace hsends := deriveEntries_le hS hsends
  obtain ⟨outlined, hcatalogued, heq⟩ := @deriveDocument_eq _ program _ mappings _ _ _ _ _ _ _ hrequests hevents hsends
  refine ⟨max fuelR (max fuelE fuelS), components, outlined, hcatalogued, fun fuel hfuel => Eq.trans ?_ heq⟩
  unfold deriveDocument
  rw [hrequests, deriveEntries_le hfuel hrequests]
  dsimp only [bind, Except.bind]
  rw [hevents, deriveEntries_le hfuel hevents]
  dsimp only
  rw [hsends, deriveEntries_le hfuel hsends]

end Entries

end Benzene.Contract.Derivation
