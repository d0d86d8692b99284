import Benzene.Contract.DerivedDocument

namespace Benzene.Contract.Derivation

open Benzene.Data

section Outlines

-- What stands at the end of the types that a type is derived from.
inductive Ending
  | schema (schema : Fields)
  | component (key : PyType)

def Ending.keys : Ending → List PyType
  | .schema _ => []
  | .component key => [key]

-- What a type is derived to, whatever its components are called.
structure Outline where
  wraps : List Wrap
  ending : Ending

def openOutline : Outline := ⟨[], .schema []⟩

-- What a component is derived to, whatever the components are called.
inductive Blueprint
  | schema (schema : Fields)
  | record (properties : List (Property × Outline))

def Blueprint.keys : Blueprint → List PyType
  | .schema _ => []
  | .record properties => properties.flatMap fun property => property.2.ending.keys

section Writing

variable (called : PyType → Str)

def Ending.write : Ending → Fields
  | .schema written => written
  | .component key => reference (called key)

def writeWraps : List Wrap → Fields → Fields
  | [], schema => schema
  | wrap :: rest, schema => wrap.apply (writeWraps rest schema)

def Outline.write (outline : Outline) : Fields := writeWraps outline.wraps (outline.ending.write called)

def Outline.derived (outline : Outline) : Derived := (outline.write called, outline.ending.keys)

def Blueprint.derived : Blueprint → Derived
  | .schema written => (written, [])
  | .record properties => derivedProperties (properties.map fun property => (property.1, property.2.derived called))

variable {called} {other : PyType → Str}

theorem Outline.write_congr {outline : Outline} (h : ∀ key ∈ outline.ending.keys, called key = other key) :
    outline.write called = outline.write other := by
  have hending : outline.ending.write called = outline.ending.write other := by
    cases hend : outline.ending with
    | schema => rfl
    | component key =>
        rw [hend] at h
        show reference _ = reference _
        rw [h key (List.mem_singleton_self key)]
  unfold Outline.write
  rw [hending]

theorem Blueprint.derived_keys (blueprint : Blueprint) : (blueprint.derived called).2 = blueprint.keys := by
  cases blueprint with
  | schema => rfl
  | record properties =>
      show (properties.map _).flatMap _ = properties.flatMap _
      rw [List.flatMap_map]
      rfl

theorem Blueprint.derived_congr {blueprint : Blueprint} (h : ∀ key ∈ blueprint.keys, called key = other key) :
    blueprint.derived called = blueprint.derived other := by
  cases blueprint with
  | schema => rfl
  | record properties =>
      have hall : properties.map (fun property => (property.1, property.2.derived called)) =
          properties.map fun property => (property.1, property.2.derived other) := by
        apply List.map_congr_left
        intro property hproperty
        have hsame : property.2.write called = property.2.write other :=
          Outline.write_congr fun key hkey => h key (List.mem_flatMap.mpr ⟨property, hproperty, hkey⟩)
        unfold Outline.derived
        rw [hsame]
      show derivedProperties _ = derivedProperties _
      rw [hall]

end Writing

variable (program : Program)

-- The types that a type is derived from, one inside the other, and what stands at the end.
inductive Describes : Context → PyType → Outline → Prop
  | schema {context : Context} {pyType : PyType} {schema : Fields}
      (hrule : rule program context pyType = .schema schema) : Describes context pyType ⟨[], .schema schema⟩
  | component {context : Context} {pyType key : PyType} (hrule : rule program context pyType = .component key) :
      Describes context pyType ⟨[], .component key⟩
  | within {context inner : Context} {pyType other : PyType} {wrap : Wrap} {outline : Outline}
      (hrule : rule program context pyType = .within inner other wrap) (h : Describes inner other outline) :
      Describes context pyType ⟨wrap :: outline.wraps, outline.ending⟩

def DescribesProperty (context : Context) (property : Property) (described : Property × Outline) : Prop :=
  described.1 = property ∧
    match property.pyType with
    | some pyType => Describes program context pyType described.2
    | none => described.2 = openOutline

inductive DescribesContent : Content → Blueprint → Prop
  | schema (schema : Fields) : DescribesContent (.schema schema) (.schema schema)
  | record {context : Context} {properties : List Property} {described : List (Property × Outline)}
      (h : List.Forall₂ (DescribesProperty program context) properties described) :
      DescribesContent (.record context properties) (.record described)

variable {program}

theorem Describes.unique {context : Context} {pyType : PyType} {a b : Outline}
    (ha : Describes program context pyType a) (hb : Describes program context pyType b) : a = b := by
  induction ha generalizing b with
  | schema hrule =>
      cases hb with
      | schema hrule' =>
          rw [hrule] at hrule'
          cases hrule'
          rfl
      | component hrule' => rw [hrule] at hrule'; cases hrule'
      | within hrule' => rw [hrule] at hrule'; cases hrule'
  | component hrule =>
      cases hb with
      | schema hrule' => rw [hrule] at hrule'; cases hrule'
      | component hrule' =>
          rw [hrule] at hrule'
          cases hrule'
          rfl
      | within hrule' => rw [hrule] at hrule'; cases hrule'
  | within hrule _ ih =>
      cases hb with
      | schema hrule' => rw [hrule] at hrule'; cases hrule'
      | component hrule' => rw [hrule] at hrule'; cases hrule'
      | within hrule' hother =>
          rw [hrule] at hrule'
          cases hrule'
          rw [ih hother]

section Inversion

variable {context : Context} {pyType : PyType} {outline : Outline}

theorem Describes.congr {other : PyType} (h : Describes program context pyType outline)
    (hrule : rule program context pyType = rule program context other) : Describes program context other outline := by
  cases h with
  | schema hschema =>
      rw [hrule] at hschema
      exact .schema hschema
  | component hcomponent =>
      rw [hrule] at hcomponent
      exact .component hcomponent
  | within hwithin hinner =>
      rw [hrule] at hwithin
      exact .within hwithin hinner

theorem Describes.of_schema {schema : Fields} (h : Describes program context pyType outline)
    (hrule : rule program context pyType = .schema schema) : outline = ⟨[], .schema schema⟩ := by
  cases h with
  | schema hrule' =>
      rw [hrule] at hrule'
      cases hrule'
      rfl
  | component hrule' => rw [hrule] at hrule'; cases hrule'
  | within hrule' _ => rw [hrule] at hrule'; cases hrule'

theorem Describes.of_component {key : PyType} (h : Describes program context pyType outline)
    (hrule : rule program context pyType = .component key) : outline = ⟨[], .component key⟩ := by
  cases h with
  | schema hrule' => rw [hrule] at hrule'; cases hrule'
  | component hrule' =>
      rw [hrule] at hrule'
      cases hrule'
      rfl
  | within hrule' _ => rw [hrule] at hrule'; cases hrule'

theorem Describes.of_within {inner : Context} {other : PyType} {wrap : Wrap}
    (h : Describes program context pyType outline) (hrule : rule program context pyType = .within inner other wrap) :
    ∃ rest, Describes program inner other rest ∧ outline = ⟨wrap :: rest.wraps, rest.ending⟩ := by
  cases h with
  | schema hrule' => rw [hrule] at hrule'; cases hrule'
  | component hrule' => rw [hrule] at hrule'; cases hrule'
  | within hrule' hinner =>
      rw [hrule] at hrule'
      cases hrule'
      exact ⟨_, hinner, rfl⟩

end Inversion

theorem DescribesProperty.unique {context : Context} {property : Property} {a b : Property × Outline}
    (ha : DescribesProperty program context property a) (hb : DescribesProperty program context property b) :
    a = b := by
  obtain ⟨hfst, ha⟩ := ha
  obtain ⟨hfst', hb⟩ := hb
  apply Prod.ext (hfst.trans hfst'.symm)
  cases htype : property.pyType with
  | none =>
      rw [htype] at ha hb
      exact ha.trans hb.symm
  | some pyType =>
      rw [htype] at ha hb
      exact ha.unique hb

theorem DescribesContent.unique {content : Content} {a b : Blueprint}
    (ha : DescribesContent program content a) (hb : DescribesContent program content b) : a = b := by
  cases ha with
  | schema schema =>
      cases hb
      rfl
  | record h =>
      cases hb with
      | @record _ _ described h' =>
          congr 1
          induction h generalizing described with
          | nil =>
              cases h'
              rfl
          | cons hhead _ ih =>
              cases h' with
              | cons hhead' hrest' => rw [hhead.unique hhead', ih hrest']

end Outlines

section Catalogues

def keysOf (components : List Component) : List PyType := components.map fun component => component.key

def tokenOf (components : List Component) (key : PyType) : Str :=
  match components.find? fun component => component.key = key with
  | some component => component.token
  | none => []

-- One component's type refers to another.
def Refers (components : List Component) (a b : PyType) : Prop := b ∈ refsOf components a

-- A type is entered once, under the token of its place.
structure Ordered (components : List Component) : Prop where
  nodup : (keysOf components).Nodup
  tokens : components.map (fun component => component.token) = (List.range components.length).map tokenAt

variable {before after more components : List Component} {key : PyType}

theorem mem_keysOf : key ∈ keysOf components ↔ ∃ component ∈ components, component.key = key := List.mem_map

theorem ordered_nil : Ordered [] where
  nodup := List.nodup_nil
  tokens := rfl

theorem find?_isSome_iff :
    (components.find? fun component => component.key = key).isSome ↔ key ∈ keysOf components := by
  rw [List.find?_isSome, mem_keysOf]
  simp

theorem find?_append_of_mem (h : key ∈ keysOf before) :
    (before ++ more).find? (fun component => component.key = key) =
      before.find? fun component => component.key = key := by
  rw [List.find?_append]
  obtain ⟨component, hfind⟩ := Option.isSome_iff_exists.mp (find?_isSome_iff.mpr h)
  rw [hfind]
  rfl

theorem find?_of_mem (h : (keysOf components).Nodup) {component : Component} (hmem : component ∈ components) :
    components.find? (fun other => other.key = component.key) = some component := by
  obtain ⟨found, hfind⟩ := Option.isSome_iff_exists.mp
    (find?_isSome_iff.mpr (mem_keysOf.mpr ⟨component, hmem, rfl⟩))
  have hkey : found.key = component.key := by simpa using List.find?_some hfind
  rw [hfind, List.inj_on_of_nodup_map h (List.mem_of_find?_eq_some hfind) hmem hkey]

theorem tokenOf_of_mem (h : (keysOf components).Nodup) {component : Component} (hmem : component ∈ components) :
    tokenOf components component.key = component.token := by
  unfold tokenOf
  rw [find?_of_mem h hmem]

theorem refsOf_of_mem (h : (keysOf components).Nodup) {component : Component} (hmem : component ∈ components) :
    refsOf components component.key = component.refs := by
  unfold refsOf
  rw [find?_of_mem h hmem]

theorem tokenOf_append (h : key ∈ keysOf before) : tokenOf (before ++ more) key = tokenOf before key := by
  unfold tokenOf
  rw [find?_append_of_mem h]

theorem Refers.append {a b : PyType} (h : Refers before a b) : Refers (before ++ more) a b := by
  unfold Refers refsOf at h ⊢
  by_cases hmem : a ∈ keysOf before
  · rwa [find?_append_of_mem hmem]
  · have hnone : before.find? (fun component => component.key = a) = none := by
      rw [← Option.not_isSome_iff_eq_none, find?_isSome_iff]
      exact hmem
    rw [hnone] at h
    cases h

theorem keysOf_append : keysOf (before ++ more) = keysOf before ++ keysOf more := List.map_append

theorem Ordered.enter (h : Ordered components) {component : Component} (hnew : component.key ∉ keysOf components)
    (htoken : component.token = tokenAt components.length) : Ordered (components ++ [component]) where
  nodup := by
    rw [keysOf_append, List.nodup_append]
    refine ⟨h.nodup, List.nodup_singleton _, ?_⟩
    rintro key hkey other hother rfl
    cases List.mem_singleton.mp hother
    exact hnew hkey
  tokens := by
    rw [List.map_append, h.tokens, List.length_append, List.length_singleton, List.range_succ, List.map_append,
      List.map_singleton, List.map_singleton, htoken]

theorem keysOf_fill (derived : Derived) : keysOf (fill key derived components) = keysOf components := by
  unfold keysOf fill
  rw [List.map_map]
  apply List.map_congr_left
  intro component _
  show (if component.key = key then _ else component : Component).key = component.key
  split <;> rfl

theorem find?_fill (derived : Derived) (other : PyType) :
    (fill key derived components).find? (fun component => component.key = other) =
      (components.find? fun component => component.key = other).map fun component =>
        if component.key = key then { component with schema := derived.1, refs := derived.2 } else component := by
  have hkeys : ∀ component : Component, (if component.key = key then
      { component with schema := derived.1, refs := derived.2 } else component : Component).key = component.key := by
    intro component
    split <;> rfl
  unfold fill
  rw [List.find?_map]
  congr 2
  funext component
  show decide ((if component.key = key then _ else component : Component).key = other) = _
  rw [hkeys]

theorem tokenOf_fill (derived : Derived) (other : PyType) :
    tokenOf (fill key derived components) other = tokenOf components other := by
  unfold tokenOf
  rw [find?_fill]
  cases components.find? fun component => component.key = other with
  | none => rfl
  | some component =>
      show (if component.key = key then _ else component : Component).token = component.token
      split <;> rfl

theorem refsOf_fill_of_ne (derived : Derived) {other : PyType} (hne : other ≠ key) :
    refsOf (fill key derived components) other = refsOf components other := by
  unfold refsOf
  rw [find?_fill]
  cases hfind : components.find? fun component => component.key = other with
  | none => rfl
  | some component =>
      have hkey : component.key = other := by simpa using List.find?_some hfind
      show (if component.key = key then _ else component : Component).refs = component.refs
      rw [if_neg (by rw [hkey]; exact hne)]

theorem Ordered.fill (h : Ordered components) (derived : Derived) : Ordered (fill key derived components) where
  nodup := by
    rw [keysOf_fill]
    exact h.nodup
  tokens := by
    have hlength : (Derivation.fill key derived components).length = components.length := List.length_map _
    rw [hlength, ← h.tokens]
    unfold Derivation.fill
    rw [List.map_map]
    apply List.map_congr_left
    intro component _
    show (if component.key = key then _ else component : Component).token = component.token
    split <;> rfl

-- A component's schema is filled in where it was entered.
theorem fill_append {component : Component} (h : (keysOf (before ++ [component] ++ more)).Nodup) (derived : Derived) :
    fill component.key derived (before ++ [component] ++ more) =
      before ++ [{ component with schema := derived.1, refs := derived.2 }] ++ more := by
  have hother : ∀ {items : List Component}, component.key ∉ keysOf items →
      fill component.key derived items = items := by
    intro items hitems
    unfold fill
    rw [List.map_congr_left (g := id), List.map_id]
    intro other hmem
    exact if_neg fun hkey => hitems (mem_keysOf.mpr ⟨other, hmem, hkey⟩)
  rw [keysOf_append, keysOf_append, List.nodup_append, List.nodup_append] at h
  obtain ⟨⟨_, _, hbefore⟩, _, hmore⟩ := h
  have hself : component.key ∈ keysOf [component] := List.mem_singleton_self _
  have hsplit : fill component.key derived (before ++ [component] ++ more) =
      fill component.key derived before ++ fill component.key derived [component] ++
        fill component.key derived more := by
    unfold fill
    rw [List.map_append, List.map_append]
  rw [hsplit, hother fun hmem => hbefore _ hmem _ hself rfl,
    hother fun hmem => hmore _ (List.mem_append_right _ hself) _ hmem rfl]
  have hfilled : fill component.key derived [component] =
      [{ component with schema := derived.1, refs := derived.2 }] := by
    show [if component.key = component.key then _ else component] = _
    rw [if_pos rfl]
  rw [hfilled]

end Catalogues

section Settling

variable [UnicodeData] (program : Program) (start : Context → PyType → Prop)

-- The types that are met while the first ones are derived, each where it is met.
inductive Met : Context → PyType → Prop
  | start {context : Context} {pyType : PyType} (h : start context pyType) : Met context pyType
  | within {context inner : Context} {pyType other : PyType} {wrap : Wrap} (h : Met context pyType)
      (hrule : rule program context pyType = .within inner other wrap) : Met inner other
  | property {context inner : Context} {pyType key other : PyType} {properties : List Property} {property : Property}
      (h : Met context pyType) (hrule : rule program context pyType = .component key)
      (hcontent : content program context key = .record inner properties) (hproperty : property ∈ properties)
      (htype : property.pyType = some other) : Met inner other

-- A component is what its type is derived to where it was met first.
def Settled (components : List Component) (component : Component) : Prop :=
  component.name = componentName program component.key ∧ component.qualified = qualified program component.key ∧
    ∃ context pyType blueprint, Met program start context pyType ∧
      rule program context pyType = .component component.key ∧
      DescribesContent program (content program context component.key) blueprint ∧
      (component.schema, component.refs) = blueprint.derived (tokenOf components) ∧
      ∀ key ∈ blueprint.keys, key ∈ keysOf components

-- Components only come in after those that are there, and nothing comes in that the
-- types referred to do not lead to.
structure Adds (before after : List Component) (refs : List PyType) : Prop where
  ordered : Ordered after
  more : ∃ more, after = before ++ more ∧ ∀ component ∈ more, Settled program start after component ∧
    ∃ key ∈ refs, Relation.ReflTransGen (Refers after) key component.key

variable {program start} {before middle after : List Component} {refs others : List PyType}

theorem Settled.mono {component : Component} (h : Settled program start middle component)
    (hkeys : ∀ key ∈ keysOf middle, key ∈ keysOf after ∧ tokenOf after key = tokenOf middle key) :
    Settled program start after component := by
  obtain ⟨hname, hqualified, context, pyType, blueprint, hmet, hrule, hdescribes, hderived, hrefs⟩ := h
  refine ⟨hname, hqualified, context, pyType, blueprint, hmet, hrule, hdescribes, ?_, ?_⟩
  · rw [hderived]
    exact Blueprint.derived_congr fun key hkey => (hkeys key (hrefs key hkey)).2.symm
  · intro key hkey
    exact (hkeys key (hrefs key hkey)).1

theorem Settled.append {component : Component} {more : List Component} (h : Settled program start middle component) :
    Settled program start (middle ++ more) component := by
  apply h.mono
  intro key hkey
  refine ⟨?_, tokenOf_append hkey⟩
  rw [keysOf_append]
  exact List.mem_append_left _ hkey

theorem Adds.refl (h : Ordered before) (refs : List PyType) : Adds program start before before refs where
  ordered := h
  more := ⟨[], (List.append_nil before).symm, fun _ hmem => nomatch hmem⟩

theorem Adds.trans (h : Adds program start before middle refs) (h' : Adds program start middle after others) :
    Adds program start before after (refs ++ others) where
  ordered := h'.ordered
  more := by
    obtain ⟨first, rfl, hfirst⟩ := h.more
    obtain ⟨second, rfl, hsecond⟩ := h'.more
    refine ⟨first ++ second, List.append_assoc _ _ _, ?_⟩
    intro component hmem
    rcases List.mem_append.mp hmem with hmem | hmem
    · obtain ⟨hsettled, key, hkey, hleads⟩ := hfirst component hmem
      refine ⟨hsettled.append, key, List.mem_append_left _ hkey, ?_⟩
      exact hleads.lift id fun _ _ hrefers => hrefers.append
    · obtain ⟨hsettled, key, hkey, hleads⟩ := hsecond component hmem
      exact ⟨hsettled, key, List.mem_append_right _ hkey, hleads⟩

theorem Adds.keys (h : Adds program start before after refs) {key : PyType} (hkey : key ∈ keysOf before) :
    key ∈ keysOf after ∧ tokenOf after key = tokenOf before key := by
  obtain ⟨more, rfl, -⟩ := h.more
  refine ⟨?_, tokenOf_append hkey⟩
  rw [keysOf_append]
  exact List.mem_append_left _ hkey

theorem Adds.weaken (h : Adds program start before after refs) (hrefs : ∀ key ∈ refs, key ∈ others) :
    Adds program start before after others where
  ordered := h.ordered
  more := by
    obtain ⟨more, hafter, hmore⟩ := h.more
    refine ⟨more, hafter, ?_⟩
    intro component hmem
    obtain ⟨hsettled, key, hkey, hleads⟩ := hmore component hmem
    exact ⟨hsettled, key, hrefs key hkey, hleads⟩

variable (program start) in
-- What deriving a type from some components comes to.
def Describing (recur : Context → PyType → Deriving Derived) : Prop :=
  ∀ {context pyType before derived after}, Met program start context pyType → Ordered before →
    recur context pyType before = .ok (derived, after) →
    ∃ outline, Describes program context pyType outline ∧ derived = outline.derived (tokenOf after) ∧
      (∀ key ∈ outline.ending.keys, key ∈ keysOf after) ∧ Adds program start before after outline.ending.keys

theorem Adds.derived_eq (h : Adds program start middle after refs) {outline : Outline}
    (hkeys : ∀ key ∈ outline.ending.keys, key ∈ keysOf middle) :
    outline.derived (tokenOf middle) = outline.derived (tokenOf after) := by
  unfold Outline.derived
  rw [Outline.write_congr fun key hkey => (h.keys (hkeys key hkey)).2.symm]

omit [UnicodeData] in
theorem deriveProperties_cons (recur : Context → PyType → Deriving Derived) (context : Context) (property : Property)
    (rest : List Property) (components : List Component) :
    deriveProperties recur context (property :: rest) components =
      (match property.pyType with
        | some pyType => recur context pyType components
        | none => .ok (([], []), components)) >>= fun first =>
      deriveProperties recur context rest first.2 >>= fun others =>
      .ok ((property, first.1) :: others.1, others.2) := by
  rw [deriveProperties]
  cases property.pyType <;> rfl

theorem describing_properties {recur : Context → PyType → Deriving Derived} (hrecur : Describing program start recur)
    {context : Context} {properties : List Property} {derived : List (Property × Derived)}
    (hmet : ∀ property ∈ properties, ∀ pyType, property.pyType = some pyType → Met program start context pyType)
    (hbefore : Ordered before) (h : deriveProperties recur context properties before = .ok (derived, after)) :
    ∃ described, List.Forall₂ (DescribesProperty program context) properties described ∧
      derived = described.map (fun property => (property.1, property.2.derived (tokenOf after))) ∧
      (∀ key ∈ (Blueprint.record described).keys, key ∈ keysOf after) ∧
      Adds program start before after (Blueprint.record described).keys := by
  induction properties generalizing before derived with
  | nil =>
      cases h
      exact ⟨[], .nil, rfl, fun _ hkey => (nomatch hkey), Adds.refl hbefore _⟩
  | cons property rest ih =>
      have hrest := fun other hother => hmet other (List.mem_cons_of_mem _ hother)
      rw [deriveProperties_cons] at h
      obtain ⟨⟨first, middle⟩, hfirst, h⟩ := Except.bind_eq_ok.mp h
      obtain ⟨⟨others, last⟩, hothers, h⟩ := Except.bind_eq_ok.mp h
      change Except.ok ((property, first) :: others, last) = _ at h
      cases h
      have hproperty : ∃ outline, DescribesProperty program context property (property, outline) ∧
          first = outline.derived (tokenOf middle) ∧ (∀ key ∈ outline.ending.keys, key ∈ keysOf middle) ∧
          Adds program start before middle outline.ending.keys := by
        cases htype : property.pyType with
        | none =>
            rw [htype] at hfirst
            cases hfirst
            refine ⟨openOutline, ⟨rfl, ?_⟩, rfl, fun _ hkey => (nomatch hkey), Adds.refl hbefore _⟩
            rw [htype]
        | some pyType =>
            rw [htype] at hfirst
            obtain ⟨outline, hdescribes, hrest⟩ :=
              hrecur (hmet property List.mem_cons_self pyType htype) hbefore hfirst
            refine ⟨outline, ⟨rfl, ?_⟩, hrest⟩
            rw [htype]
            exact hdescribes
      obtain ⟨outline, hdescribes, rfl, hkeys, hadds⟩ := hproperty
      obtain ⟨described, hall, rfl, hallKeys, haddsRest⟩ := ih hrest hadds.ordered hothers
      refine ⟨(property, outline) :: described, .cons hdescribes hall, ?_, ?_, hadds.trans haddsRest⟩
      · rw [List.map_cons, haddsRest.derived_eq hkeys]
      · intro key hkey
        rcases List.mem_append.mp hkey with hkey | hkey
        · exact (haddsRest.keys (hkeys key hkey)).1
        · exact hallKeys key hkey

theorem describing_content {recur : Context → PyType → Deriving Derived} (hrecur : Describing program start recur)
    {content : Content} {derived : Derived}
    (hmet : ∀ context properties, content = .record context properties →
      ∀ property ∈ properties, ∀ pyType, property.pyType = some pyType → Met program start context pyType)
    (hbefore : Ordered before) (h : deriveContent recur content before = .ok (derived, after)) :
    ∃ blueprint, DescribesContent program content blueprint ∧ derived = blueprint.derived (tokenOf after) ∧
      (∀ key ∈ blueprint.keys, key ∈ keysOf after) ∧ Adds program start before after blueprint.keys := by
  cases content with
  | schema schema =>
      cases h
      exact ⟨.schema schema, .schema schema, rfl, fun _ hkey => (nomatch hkey), Adds.refl hbefore _⟩
  | record context properties =>
      unfold deriveContent at h
      obtain ⟨⟨listed, last⟩, hlisted, h⟩ := Except.bind_eq_ok.mp h
      cases h
      obtain ⟨described, hall, rfl, hkeys, hadds⟩ :=
        describing_properties hrecur (hmet context properties rfl) hbefore hlisted
      exact ⟨.record described, .record hall, rfl, hkeys, hadds⟩

omit [UnicodeData] in
theorem tokenOf_entered {component : Component} (h : component.key ∉ keysOf before) :
    tokenOf (before ++ [component]) component.key = component.token := by
  have hnone : before.find? (fun other => other.key = component.key) = none := by
    rw [← Option.not_isSome_iff_eq_none, find?_isSome_iff]
    exact h
  unfold tokenOf
  rw [List.find?_append, hnone, Option.none_or, List.find?_cons_of_pos (by simp)]

-- A component that was entered is settled once it is filled in.
theorem Adds.filled {component : Component} {derived : Derived} {blueprint : Blueprint} {context : Context}
    {pyType : PyType} (h : Adds program start (before ++ [component]) after blueprint.keys)
    (hempty : component.refs = []) (hname : component.name = componentName program component.key)
    (hqualified : component.qualified = qualified program component.key) (hmet : Met program start context pyType)
    (hrule : rule program context pyType = .component component.key)
    (hdescribes : DescribesContent program (content program context component.key) blueprint)
    (hderived : derived = blueprint.derived (tokenOf after)) (hkeys : ∀ key ∈ blueprint.keys, key ∈ keysOf after) :
    Adds program start before (fill component.key derived after) [component.key] := by
  have hordered := h.ordered
  obtain ⟨more, rfl, hmore⟩ := h.more
  have hsame : ∀ key ∈ keysOf (before ++ [component] ++ more),
      key ∈ keysOf (fill component.key derived (before ++ [component] ++ more)) ∧
        tokenOf (fill component.key derived (before ++ [component] ++ more)) key =
          tokenOf (before ++ [component] ++ more) key := by
    intro key hkey
    rw [keysOf_fill]
    exact ⟨hkey, tokenOf_fill derived key⟩
  have hmem : component ∈ before ++ [component] ++ more := by simp
  have hsplit := fill_append hordered.nodup derived
  have hrefs : refsOf (fill component.key derived (before ++ [component] ++ more)) component.key = blueprint.keys := by
    have hfilled : ({ component with schema := derived.1, refs := derived.2 } : Component) ∈
        fill component.key derived (before ++ [component] ++ more) := by
      rw [hsplit]
      simp
    rw [refsOf_of_mem (hordered.fill derived).nodup hfilled, hderived, Blueprint.derived_keys]
  refine ⟨hordered.fill derived, { component with schema := derived.1, refs := derived.2 } :: more, ?_, ?_⟩
  · rw [hsplit, List.append_assoc]
    rfl
  · intro other hother
    rcases List.mem_cons.mp hother with rfl | hother
    · refine ⟨Settled.mono ⟨hname, hqualified, context, pyType, blueprint, hmet, hrule, hdescribes, hderived, hkeys⟩
        hsame, component.key, List.mem_singleton_self _, .refl⟩
    · obtain ⟨hsettled, key, hkey, hleads⟩ := hmore other hother
      refine ⟨hsettled.mono hsame, component.key, List.mem_singleton_self _, .head (b := key) ?_ ?_⟩
      · show key ∈ refsOf _ component.key
        rw [hrefs]
        exact hkey
      · apply hleads.lift id
        intro a b hrefers
        show b ∈ refsOf _ a
        by_cases ha : a = component.key
        · rw [ha, Refers, refsOf_of_mem hordered.nodup hmem, hempty] at hrefers
          cases hrefers
        · rwa [refsOf_fill_of_ne derived ha]

theorem describing_component {recur : Context → PyType → Deriving Derived} (hrecur : Describing program start recur)
    {context : Context} {pyType key : PyType} {token : Str} (hmet : Met program start context pyType)
    (hrule : rule program context pyType = .component key) (hbefore : Ordered before)
    (h : deriveComponent program recur context key before = .ok (token, after)) :
    token = tokenOf after key ∧ key ∈ keysOf after ∧ Adds program start before after [key] := by
  unfold deriveComponent at h
  cases hfind : before.find? fun component => component.key = key with
  | some component =>
      rw [hfind] at h
      cases h
      have hkey : key ∈ keysOf before := by
        rw [← find?_isSome_iff, hfind]
        rfl
      refine ⟨?_, hkey, Adds.refl hbefore _⟩
      unfold tokenOf
      rw [hfind]
  | none =>
      rw [hfind] at h
      obtain ⟨⟨derived, last⟩, hcontent, h⟩ := Except.bind_eq_ok.mp h
      cases h
      have hnew : key ∉ keysOf before := by
        rw [← find?_isSome_iff, hfind]
        simp
      obtain ⟨blueprint, hdescribes, hderived, hkeys, hadds⟩ := describing_content hrecur
        (fun inner properties hrecord property hproperty other htype =>
          .property hmet hrule hrecord hproperty htype)
        (hbefore.enter hnew rfl) hcontent
      have hentered : key ∈ keysOf (before ++ [⟨key, componentName program key, tokenAt before.length,
          qualified program key, [], []⟩]) := by
        rw [keysOf_append]
        exact List.mem_append_right _ (List.mem_singleton_self key)
      refine ⟨?_, ?_, hadds.filled rfl rfl rfl hmet hrule hdescribes hderived hkeys⟩
      · rw [tokenOf_fill, (hadds.keys hentered).2, tokenOf_entered hnew]
      · rw [keysOf_fill]
        exact (hadds.keys hentered).1

theorem describing_derive (fuel : Nat) : Describing program start (derive program fuel) := by
  induction fuel with
  | zero =>
      intro context pyType before derived after _ _ h
      cases h
  | succ fuel ih =>
      intro context pyType before derived after hmet hbefore h
      unfold derive at h
      cases hrule : rule program context pyType with
      | schema schema =>
          rw [hrule] at h
          cases h
          exact ⟨⟨[], .schema schema⟩, .schema hrule, rfl, fun _ hkey => (nomatch hkey), Adds.refl hbefore _⟩
      | within inner other wrap =>
          rw [hrule] at h
          obtain ⟨⟨nested, last⟩, hnested, h⟩ := Except.bind_eq_ok.mp h
          cases h
          obtain ⟨outline, hdescribes, rfl, hkeys, hadds⟩ := ih (.within hmet hrule) hbefore hnested
          exact ⟨⟨wrap :: outline.wraps, outline.ending⟩, .within hrule hdescribes, rfl, hkeys, hadds⟩
      | component key =>
          rw [hrule] at h
          obtain ⟨⟨token, last⟩, hcomponent, h⟩ := Except.bind_eq_ok.mp h
          cases h
          obtain ⟨rfl, hkey, hadds⟩ := describing_component ih hmet hrule hbefore hcomponent
          refine ⟨⟨[], .component key⟩, .component hrule, rfl, ?_, hadds⟩
          intro other hother
          cases List.mem_singleton.mp hother
          exact hkey

end Settling

end Benzene.Contract.Derivation
