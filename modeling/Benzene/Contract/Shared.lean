import Benzene.Contract.Admits
import Benzene.Contract.Dereferenced
import Benzene.Contract.OrderFree

namespace Benzene.Contract.Derivation

open Benzene.Data Benzene.Data.JsonSchema
open Benzene.Mesh (Member)

section Distinctness

theorem distinct_scalars (values : List Scalar) : (Json.arr (values.map Scalar.toJson)).Distinct := by
  rw [Json.distinct_arr]
  intro value hvalue
  obtain ⟨scalar, -, rfl⟩ := List.mem_map.mp hvalue
  cases scalar <;> trivial

theorem distinct_field {key : Str} {value : Json} (h : value.Distinct) : (Json.obj [(key, value)]).Distinct := by
  rw [Json.distinct_obj]
  simpa using h

theorem distinct_pair {a b : Str} {x y : Json} (hne : a ≠ b) (hx : x.Distinct) (hy : y.Distinct) :
    (Json.obj [(a, x), (b, y)]).Distinct := by
  rw [Json.distinct_obj]
  simp [hne, hx, hy]

theorem distinct_triple {a b c : Str} {x y z : Json} (hkeys : [a, b, c].Nodup) (hx : x.Distinct) (hy : y.Distinct)
    (hz : z.Distinct) : (Json.obj [(a, x), (b, y), (c, z)]).Distinct := by
  rw [Json.distinct_obj]
  exact ⟨hkeys, by simp [hx, hy, hz]⟩

theorem distinct_set {key : Str} {value : Json} {fields : Fields} (h : (Json.obj fields).Distinct)
    (hvalue : value.Distinct) : (Json.obj (Entries.set key value fields)).Distinct := by
  obtain ⟨hnodup, hfields⟩ := Json.distinct_obj.mp h
  refine Json.distinct_obj.mpr ⟨Entries.nodup_keys_set hnodup, ?_⟩
  intro field hfield
  rcases Entries.mem_set hfield with rfl | hmem
  · exact hvalue
  · exact hfields field hmem

theorem distinct_enum (name : Str) (values : List Scalar) : (Json.obj (enumSchema name values)).Distinct :=
  distinct_pair (by decide) trivial (distinct_scalars values)

variable {schema : Fields}

theorem Leaf.distinct (h : Leaf schema) : (Json.obj schema).Distinct := by
  cases h with
  | any => exact Json.distinct_obj.mpr ⟨List.nodup_nil, fun _ hmem => nomatch hmem⟩
  | array | map =>
      exact distinct_pair (by decide) trivial (Json.distinct_obj.mpr ⟨List.nodup_nil, fun _ hmem => nomatch hmem⟩)
  | primitive primitive =>
      cases primitive with
      | bool | int | str | time | decimal => exact distinct_field trivial
      | float | bytes | datetime | date | timedelta | uuid => exact distinct_pair (by decide) trivial trivial
  | path => exact distinct_field trivial
  | literal name scalars nullable =>
      cases nullable with
      | false => exact distinct_enum name scalars
      | true => exact distinct_triple (by decide) trivial (distinct_scalars scalars) trivial

theorem EnumLeaf.distinct (h : EnumLeaf schema) : (Json.obj schema).Distinct := by
  cases h with
  | any => exact Leaf.any.distinct
  | values name values => exact distinct_enum name values

theorem distinct_apply (h : (Json.obj schema).Distinct) (wrap : Wrap) : (Json.obj (wrap.apply schema)).Distinct := by
  cases wrap with
  | same => exact h
  | array => exact distinct_pair (by decide) trivial h
  | map => exact distinct_pair (by decide) trivial h
  | nullable refType =>
      show (Json.obj (nullable schema refType)).Distinct
      unfold nullable
      split
      · exact h
      · split
        · split
          · refine distinct_triple (by decide) trivial trivial (Json.distinct_arr.mpr ?_)
            simpa using h
          · exact distinct_set h trivial
        · exact distinct_set h trivial

theorem Outline.distinct {outline : Outline} (hplain : outline.Plain) (called : PyType → Str) :
    (Json.obj (outline.write called)).Distinct := by
  obtain ⟨wraps, ending⟩ := outline
  induction wraps with
  | nil =>
      cases ending with
      | schema schema => exact (hplain schema rfl).distinct
      | component key => exact distinct_field trivial
  | cons wrap rest ih => exact distinct_apply (ih hplain) wrap

theorem Blueprint.distinct {blueprint : Blueprint} (hplain : blueprint.Plain) (called : PyType → Str) :
    (Json.obj (blueprint.derived called).1).Distinct := by
  cases blueprint with
  | schema schema => exact EnumLeaf.distinct hplain
  | record described =>
      rw [Blueprint.derived_record]
      have hproperties : (Json.obj (Entries.update [] (Entries.mapValues
          (fun outline : Outline => Json.obj (outline.write called))
          (described.map fun property => (property.1.name, property.2))))).Distinct := by
        refine Json.distinct_obj.mpr ⟨Entries.nodup_keys_update _ _ List.nodup_nil, ?_⟩
        intro field hfield
        rcases Entries.mem_update hfield with hnil | hmem
        · cases hnil
        · rw [Entries.mapValues, List.map_map] at hmem
          obtain ⟨property, hproperty, rfl⟩ := List.mem_map.mp hmem
          exact Outline.distinct (hplain property hproperty) called
      have hnames : ∀ names : List Str, (Json.arr (names.map .str)).Distinct := by
        intro names
        rw [Json.distinct_arr]
        intro name hname
        obtain ⟨text, -, rfl⟩ := List.mem_map.mp hname
        trivial
      unfold recordSchema Json.fieldIf
      split
      · exact distinct_triple (by decide) trivial hproperties (hnames _)
      · exact distinct_pair (by decide) trivial hproperties

end Distinctness

section Loops

variable [UnicodeData]

-- What a schema is read to refer to, it mentions.
theorem mentions_of_refs {name : Str} {value : Json} {pos : Position} (h : name ∈ (read pos value).refs) :
    Mentions (schemaRefPrefix ++ name) value := by
  induction value using Json.induct generalizing pos with
  | null | bool | int | float | str => cases pos <;> cases h
  | arr items ih =>
      cases pos with
      | branches =>
          rw [read, readBranches_eq, Shape.refs, Shape.mem_refsItems] at h
          obtain ⟨shape, hshape, hname⟩ := h
          obtain ⟨item, hitem, rfl⟩ := List.mem_map.mp hshape
          exact .item hitem (ih item hitem hname)
      | schema | properties | plain => cases h
  | obj fields ih =>
      cases pos with
      | plain | branches => cases h
      | properties =>
          rw [read, readMembers_eq, Shape.refs, Shape.mem_refsMembers] at h
          obtain ⟨shape, hshape, hname⟩ := h
          obtain ⟨field, hfield, rfl⟩ := List.mem_map.mp hshape
          exact .member hfield (ih field hfield hname)
      | schema =>
          cases hname : refName fields with
          | some other =>
              simp only [read, hname, Shape.refs, List.mem_singleton] at h
              subst h
              exact .own (Entries.mem_of_get? (get?_ref_of_refName hname))
          | none =>
              simp only [read, hname, Shape.refs, Shape.mem_refsMembers] at h
              obtain ⟨keyword, hkeyword, hrefs⟩ := h
              rcases mem_readKeywords hkeyword with
                ⟨-, value, hvalue, hshape⟩ | ⟨-, ⟨json, hplain⟩ | ⟨-, error, hplain⟩⟩
              · rw [hshape] at hrefs
                exact .member hvalue (ih _ hvalue hrefs)
              · rw [hplain] at hrefs
                cases hrefs
              · rw [hplain] at hrefs
                cases hrefs

omit [UnicodeData] in
theorem not_rel_self_of_acc {α : Type} {r : α → α → Prop} {a : α} (h : Acc r a) : ¬r a a := by
  induction h with
  | intro a _ ih => exact fun hself => ih a hself hself

-- No chain of references from a type goes on without end: the type leads to none that leads back to itself.
def LoopFree (components : List Component) (key : PyType) : Prop :=
  Acc (fun other key => Refers components key other) key

omit [UnicodeData] in
theorem loopFree_of_refs_nil {components : List Component} {key : PyType} (h : refsOf components key = []) :
    LoopFree components key := by
  refine .intro key fun other hrefers => ?_
  rw [Refers, h] at hrefers
  cases hrefers

variable {program : Program} {start : Context → PyType → Prop} {components : List Component} {refs : List PyType}

-- What a component is, by the tokens and by the names of the others.
structure Component.Written (program : Program) (components : List Component) (component : Component)
    (blueprint : Blueprint) : Prop where
  plain : blueprint.Plain
  refs : component.refs = blueprint.keys
  keys : ∀ key ∈ blueprint.keys, key ∈ keysOf components
  schema : component.schema = (blueprint.derived (tokenOf components)).1
  renamed : rename (finalNames components) (.obj component.schema) = .obj (blueprint.derived (componentName program)).1
  mentions : ∀ name, Mentions (schemaRefPrefix ++ name) (.obj component.schema) →
    ∃ key ∈ blueprint.keys, name = tokenOf components key

theorem Adds.component (h : Adds program start [] components refs) {component : Component}
    (hmem : component ∈ components) : ∃ blueprint, component.Written program components blueprint := by
  obtain ⟨⟨-, -, context, pyType, blueprint, -, -, hdescribes, hderived, hkeys⟩, -⟩ := h.settled hmem
  have hschema : component.schema = (blueprint.derived (tokenOf components)).1 := by rw [← hderived]
  refine ⟨blueprint, hdescribes.plain, ?_, hkeys, hschema, ?_, ?_⟩
  · rw [← @Blueprint.derived_keys (tokenOf components), ← hderived]
  · rw [hschema]
    exact rename_blueprint hdescribes (h.renames hkeys)
  · intro name hmentions
    rw [hschema] at hmentions
    obtain ⟨key, hkey, href⟩ := mentions_blueprint hdescribes hmentions
    exact ⟨key, hkey, List.append_cancel_left href⟩

theorem Adds.distinct (h : Adds program start [] components refs) : ∀ entry ∈ byToken components, entry.2.Distinct := by
  intro entry hentry
  obtain ⟨component, hmem, rfl⟩ := List.mem_map.mp hentry
  obtain ⟨blueprint, hwritten⟩ := h.component hmem
  show (Json.obj component.schema).Distinct
  rw [hwritten.schema]
  exact Blueprint.distinct hwritten.plain _

-- Where no chain of references is endless, none is cut. The induction is along the references.
theorem Adds.uncut (h : Adds program start [] components refs) {component : Component} (hmem : component ∈ components)
    (hfree : LoopFree components component.key) {expanding : List Str}
    (hexpanding : ∀ name ∈ expanding, ∃ ancestor ∈ components, ancestor.token = name ∧
      Relation.ReflTransGen (Refers components) ancestor.key component.key) :
    Uncut (byToken components) expanding component.schema := by
  generalize hkey : component.key = key at hfree
  induction hfree generalizing component expanding with
  | intro key hacc ih =>
      subst hkey
      have hself : Acc (fun other key => Refers components key other) component.key := .intro _ hacc
      have hloop := not_rel_self_of_acc hself.transGen
      obtain ⟨blueprint, hwritten⟩ := h.component hmem
      have hrefs : ∀ name ∈ (read .schema (.obj component.schema)).refs, ∃ target ∈ components,
          target.token = name ∧ Refers components component.key target.key := by
        intro name hname
        obtain ⟨other, hother, rfl⟩ := hwritten.mentions name (mentions_of_refs hname)
        obtain ⟨target, htarget, rfl⟩ := mem_keysOf.mp (hwritten.keys other hother)
        refine ⟨target, htarget, (tokenOf_of_mem h.ordered.nodup htarget).symm, ?_⟩
        unfold Refers
        rw [refsOf_of_mem h.ordered.nodup hmem, hwritten.refs]
        exact hother
      refine .intro ?_ ?_ ?_
      · intro name hname hcut
        obtain ⟨target, htarget, rfl, hrefers⟩ := hrefs name hname
        obtain ⟨ancestor, hancestor, htoken, hleads⟩ := hexpanding _ hcut
        cases List.inj_on_of_nodup_map h.ordered.nodup_tokens hancestor htarget htoken
        exact hloop (Relation.transGen_swap.mpr (.head' hrefers hleads))
      · intro name hname
        obtain ⟨target, htarget, rfl, -⟩ := hrefs name hname
        exact ⟨target.schema, get?_byToken h.ordered htarget⟩
      · intro name hname schema hget
        obtain ⟨target, htarget, rfl, hrefers⟩ := hrefs name hname
        rw [get?_byToken h.ordered htarget] at hget
        cases hget
        apply ih target.key hrefers htarget _ rfl
        intro name hname
        rcases List.mem_cons.mp hname with rfl | hname
        · exact ⟨target, htarget, rfl, .refl⟩
        · obtain ⟨ancestor, hancestor, htoken, hleads⟩ := hexpanding name hname
          exact ⟨ancestor, hancestor, htoken, hleads.tail hrefers⟩

end Loops

section Comparing

variable [UnicodeData] {components : List Component} {entryRefs : EntryRefs}

theorem checkGroup_ok {first : Component} {reference : Json} {others : List Component}
    (h : checkGroup components entryRefs first reference others = .ok ()) : ∀ other ∈ others, ∃ normalized,
      normalizeSchema (byToken components) (.obj other.schema) = .ok normalized ∧
        normalized.canonical = reference.canonical := by
  induction others with
  | nil => exact fun _ hmem => nomatch hmem
  | cons other rest ih =>
      obtain ⟨normalized, hnormalized, h⟩ := Except.bind_eq_ok.mp h
      split at h
      · cases h
      · rename_i hequal
        rw [List.forall_mem_cons]
        exact ⟨⟨normalized, normalizeComponent_ok.mp hnormalized, not_not.mp hequal⟩, ih h⟩

-- Components of one name are normalized to one schema, where the catalogue is finished.
theorem finish_agree {schemas : Fields} (h : finish components entryRefs = .ok schemas) {a b : Component}
    (ha : a ∈ components) (hb : b ∈ components) (hname : a.name = b.name) :
    Agree (normalizeSchema (byToken components) (.obj a.schema))
      (normalizeSchema (byToken components) (.obj b.schema)) := by
  obtain ⟨settled, hsettled, -⟩ := Except.bind_eq_ok.mp h
  obtain ⟨entry, -, hentry⟩ := exists_of_mem_left (Except.mapM_eq_ok.mp hsettled) (mem_groupNames.mpr ⟨a, ha, rfl⟩)
  have hmembers : ∀ component ∈ components, component.name = a.name → component ∈ group components a.name :=
    fun component hmem hsame => mem_group.mpr ⟨hmem, hsame⟩
  unfold settleGroup at hentry
  cases hgroup : group components a.name with
  | nil =>
      have hmem := hmembers a ha rfl
      rw [hgroup] at hmem
      cases hmem
  | cons first others =>
      rw [hgroup] at hentry hmembers
      obtain ⟨reference, hreference, hentry⟩ := Except.bind_eq_ok.mp hentry
      obtain ⟨checked, hcheck, -⟩ := Except.bind_eq_ok.mp hentry
      have hall : ∀ component ∈ first :: others, ∃ normalized,
          normalizeSchema (byToken components) (.obj component.schema) = .ok normalized ∧
            normalized.canonical = reference.canonical := by
        rw [List.forall_mem_cons]
        exact ⟨⟨reference, normalizeComponent_ok.mp hreference, rfl⟩, checkGroup_ok hcheck⟩
      obtain ⟨x, hx, hxsame⟩ := hall a (hmembers a ha rfl)
      obtain ⟨y, hy, hysame⟩ := hall b (hmembers b hb hname.symm)
      exact ⟨x, y, hx, hy, hxsame.trans hysame.symm⟩

theorem plainKeyword_unicode {key : Str} {value : Json} {error : PyError}
    (h : plainKeyword key value = .error error) : error = ⟨.unicodeEncodeError, []⟩ := by
  cases value with
  | arr items =>
      unfold plainKeyword at h
      dsimp only at h
      split at h
      · split at h
        · cases h
        · rcases Except.bind_eq_error.mp h with hsorted | ⟨_, -, h⟩
          · rcases Except.bind_eq_error.mp hsorted with hkeys | ⟨_, -, hkeys⟩
            · obtain ⟨item, -, hitem⟩ := Except.exists_of_mapM_eq_error hkeys
              rcases Except.bind_eq_error.mp hitem with hkey | ⟨_, -, hkey⟩
              · unfold utf16Key at hkey
                split at hkey
                · cases hkey
                · cases hkey
                  rfl
              · cases hkey
            · cases hkeys
          · cases h
      · cases h
  | obj | null | bool | int | float | str => cases h

theorem read_ne_failed {pos : Position} {value : Json} {error : PyError} : read pos value ≠ .failed error := by
  intro hfailed
  cases value with
  | obj fields =>
      cases pos with
      | schema =>
          rw [read] at hfailed
          split at hfailed <;> cases hfailed
      | properties | branches | plain => cases hfailed
  | arr items => cases pos <;> cases hfailed
  | null | bool | int | float | str => cases pos <;> cases hfailed

theorem failed_readKeywords {schema : Fields} {member : Str × Shape} {error : PyError}
    (h : member ∈ readKeywords schema) (hfailed : member.2 = .failed error) : error = ⟨.unicodeEncodeError, []⟩ := by
  induction schema with
  | nil => cases h
  | cons keyword rest ih =>
      obtain ⟨key, value⟩ := keyword
      by_cases hskip : annotates key = true ∨ (key, value) = emptyProperties
      · rw [readKeywords_skip hskip] at h
        exact ih h
      · rw [not_or, Bool.not_eq_true] at hskip
        by_cases hp : position key = .plain
        · rw [readKeywords_plain hskip.1 hp] at h
          rcases List.mem_append.mp h with h | h
          · unfold readPlain at h
            cases hkept : plainKeyword key value with
            | error failure =>
                rw [hkept] at h
                cases List.mem_singleton.mp h
                cases hfailed
                exact plainKeyword_unicode hkept
            | ok kept =>
                rw [hkept] at h
                obtain ⟨value, -, rfl⟩ := List.mem_map.mp h
                cases hfailed
          · exact ih h
        · rw [readKeywords_schema hskip.1 hskip.2 hp] at h
          rcases List.mem_cons.mp h with rfl | h
          · exact absurd hfailed read_ne_failed
          · exact ih h

variable {expand : Str → Except PyError Json} {expanding : List Str} {error : PyError}

omit [UnicodeData] in
theorem unfoldMembers_error {members : List (Str × Shape)}
    (h : Shape.unfoldMembers expand expanding members = .error error) :
    ∃ member ∈ members, member.2.unfold expand expanding = .error error := by
  induction members with
  | nil => cases h
  | cons member rest ih =>
      rcases Except.bind_eq_error.mp h with hmember | ⟨_, -, h⟩
      · exact ⟨member, List.mem_cons_self, hmember⟩
      · rcases Except.bind_eq_error.mp h with hrest | ⟨_, -, h⟩
        · obtain ⟨other, hother, herror⟩ := ih hrest
          exact ⟨other, List.mem_cons_of_mem _ hother, herror⟩
        · cases h

omit [UnicodeData] in
theorem unfoldItems_error {items : List Shape} (h : Shape.unfoldItems expand expanding items = .error error) :
    ∃ item ∈ items, item.unfold expand expanding = .error error := by
  induction items with
  | nil => cases h
  | cons item rest ih =>
      rcases Except.bind_eq_error.mp h with hitem | ⟨_, -, h⟩
      · exact ⟨item, List.mem_cons_self, hitem⟩
      · rcases Except.bind_eq_error.mp h with hrest | ⟨_, -, h⟩
        · obtain ⟨other, hother, herror⟩ := ih hrest
          exact ⟨other, List.mem_cons_of_mem _ hother, herror⟩
        · cases h

-- A schema is normalized, or one of its property names cannot be encoded.
theorem unfold_unicode (hexpand : ∀ name error, expand name = .error error → error = ⟨.unicodeEncodeError, []⟩)
    {value : Json} {pos : Position} (h : (read pos value).unfold expand expanding = .error error) :
    error = ⟨.unicodeEncodeError, []⟩ := by
  induction value using Json.induct generalizing pos with
  | null | bool | int | float | str => cases pos <;> cases h
  | arr items ih =>
      cases pos with
      | branches =>
          rw [read, readBranches_eq] at h
          rcases Except.bind_eq_error.mp h with h | ⟨_, -, h⟩
          · obtain ⟨shape, hshape, herror⟩ := unfoldItems_error h
            obtain ⟨item, hitem, rfl⟩ := List.mem_map.mp hshape
            exact ih item hitem herror
          · cases h
      | schema | properties | plain => cases h
  | obj fields ih =>
      cases pos with
      | plain | branches => cases h
      | properties =>
          rw [read, readMembers_eq] at h
          rcases Except.bind_eq_error.mp h with h | ⟨_, -, h⟩
          · obtain ⟨shape, hshape, herror⟩ := unfoldMembers_error h
            obtain ⟨field, hfield, rfl⟩ := List.mem_map.mp hshape
            exact ih field hfield herror
          · cases h
      | schema =>
          cases hname : refName fields with
          | some name =>
              simp only [read, hname, Shape.unfold] at h
              split at h
              · cases h
              · exact hexpand name error h
          | none =>
              simp only [read, hname] at h
              rcases Except.bind_eq_error.mp h with h | ⟨_, -, h⟩
              · obtain ⟨keyword, hkeyword, herror⟩ := unfoldMembers_error h
                rcases mem_readKeywords hkeyword with
                  ⟨-, value, hvalue, hshape⟩ | ⟨-, ⟨json, hplain⟩ | ⟨-, failure, hplain⟩⟩
                · rw [hshape] at herror
                  exact ih _ hvalue herror
                · rw [hplain] at herror
                  cases herror
                · have hunicode := failed_readKeywords hkeyword hplain
                  rw [hplain] at herror
                  cases herror
                  exact hunicode
              · cases h

theorem normalizeWithin_unicode {catalogue : Fields} {fuel : Nat} {schema : Json}
    (h : normalizeWithin catalogue fuel expanding schema = .error error) : error = ⟨.unicodeEncodeError, []⟩ := by
  induction fuel generalizing expanding schema error with
  | zero =>
      rw [normalizeWithin, normalizeAt_eq] at h
      exact unfold_unicode (fun _ _ hexpand => by cases hexpand) h
  | succ fuel ih =>
      rw [normalizeWithin, normalizeAt_eq] at h
      exact unfold_unicode (fun _ _ hexpand => ih hexpand) h

-- How a catalogue is refused: names collide, or a property name has no encoding.
def Refused (error : DeriveError) : Prop :=
  (∃ name types topics, error = .collision name types topics) ∨ error = .error ⟨.unicodeEncodeError, []⟩

theorem normalizeComponent_refused {component : Component} {error : DeriveError}
    (h : normalizeComponent components component = .error error) : Refused error := by
  unfold normalizeComponent at h
  cases hnormalize : normalizeSchema (byToken components) (.obj component.schema) with
  | ok normalized =>
      rw [hnormalize] at h
      cases h
  | error failure =>
      rw [hnormalize] at h
      cases h
      exact .inr (congrArg DeriveError.error (normalizeWithin_unicode hnormalize))

theorem checkGroup_refused {first : Component} {reference : Json} {others : List Component} {error : DeriveError}
    (h : checkGroup components entryRefs first reference others = .error error) : Refused error := by
  induction others with
  | nil => cases h
  | cons other rest ih =>
      rcases Except.bind_eq_error.mp h with hother | ⟨normalized, -, h⟩
      · exact normalizeComponent_refused hother
      · split at h
        · cases h
          exact .inl ⟨_, _, _, rfl⟩
        · exact ih h

theorem finish_refused {error : DeriveError} (h : finish components entryRefs = .error error) : Refused error := by
  rcases Except.bind_eq_error.mp h with h | ⟨settled, -, h⟩
  · obtain ⟨name, -, h⟩ := Except.exists_of_mapM_eq_error h
    unfold settleGroup at h
    split at h
    · cases h
    · rcases Except.bind_eq_error.mp h with hfirst | ⟨reference, -, h⟩
      · exact normalizeComponent_refused hfirst
      · rcases Except.bind_eq_error.mp h with hcheck | ⟨checked, -, h⟩
        · exact checkGroup_refused hcheck
        · cases h
  · cases h

end Comparing

section Sharing

variable [UnicodeData] {program : Program} {fuel : Nat} {mappings : Str × Str → List (Str × Str)}
  {registrations : Registrations} {document : Document} {components : List Component}
  {outlined : Member → List Outlined} {entryRefs : EntryRefs}

-- The components that the entries of some registrations come to.
def derivedComponents (program : Program) (fuel : Nat) (registrations : Registrations) :
    Except DeriveError (List Component) := do
  let (_, components) ← deriveEntries program fuel (registrations.declared .requests) []
  let (_, components) ← deriveEntries program fuel (registrations.declared .events) components
  let (_, components) ← deriveEntries program fuel (registrations.declared .sends) components
  return components

theorem deriveDocument_of_components (h : derivedComponents program fuel registrations = .ok components) :
    ∃ outlined, Catalogued program registrations components outlined ∧
      deriveDocument program fuel mappings registrations =
        (finish components ((outlined .requests ++ outlined .events ++ outlined .sends).map Outlined.refs)).map
          (Outlined.published (componentName program) mappings outlined) := by
  obtain ⟨⟨requests, first⟩, hrequests, h⟩ := Except.bind_eq_ok.mp h
  obtain ⟨⟨events, second⟩, hevents, h⟩ := Except.bind_eq_ok.mp h
  obtain ⟨⟨sends, third⟩, hsends, h⟩ := Except.bind_eq_ok.mp h
  cases h
  exact deriveDocument_eq hrequests hevents hsends

-- The values of a component's own schema: each reference is to the type's own component.
def OwnValue (components : List Component) (component : Component) (json : Json) : Prop :=
  Accepts (resolveIn (byToken components)) component.schema json

-- The values that a document's component of a name admits.
def PublishedValue (document : Document) (name : Str) (json : Json) : Prop :=
  Accepts (resolveIn document.schemas) (reference name) json

-- Components that claim one name describe one shape.
def SharesShapes (components : List Component) : Prop :=
  ∀ a ∈ components, ∀ b ∈ components, a.name = b.name → ∀ json, OwnValue components a json ↔ OwnValue components b json

-- Where components that claim one name are normalized to one schema, nothing was cut in them, or
-- they are written alike by the names of what they refer to.
def ComparesWhole (components : List Component) : Prop :=
  ∀ a ∈ components, ∀ b ∈ components, a.name = b.name →
    Agree (normalizeSchema (byToken components) (.obj a.schema))
      (normalizeSchema (byToken components) (.obj b.schema)) →
      (LoopFree components a.key ∧ LoopFree components b.key) ∨
        rename (finalNames components) (.obj a.schema) = rename (finalNames components) (.obj b.schema)

omit [UnicodeData] in
theorem ownValue_reference (hordered : Ordered components) {component : Component} (hmem : component ∈ components)
    (json : Json) : Accepts (resolveIn (byToken components)) (reference (tokenOf components component.key)) json ↔
      OwnValue components component json := by
  rw [accepts_ref_iff rfl, tokenOf_of_mem hordered.nodup hmem, resolveIn_of_get? (get?_byToken hordered hmem)]
  simp [OwnValue]

theorem Catalogued.publishing (h : Catalogued program registrations components outlined)
    (hfinish : finish components entryRefs = .ok document.schemas)
    (hshared : ∀ a ∈ components, ∀ b ∈ components, a.name = b.name →
      (∀ json, OwnValue components a json ↔ OwnValue components b json) ∨
        rename (finalNames components) (.obj a.schema) = rename (finalNames components) (.obj b.schema)) :
    Publishing (resolveIn (byToken components)) (resolveIn document.schemas) (tokenOf components)
      (componentName program) (keysOf components) := by
  refine ⟨fun key hkey => ?_⟩
  obtain ⟨component, hmem, rfl⟩ := mem_keysOf.mp hkey
  have hordered := h.adds.ordered
  have hname : ∀ other ∈ components, other.name = componentName program other.key :=
    fun other hother => (h.adds.settled hother).1.1
  obtain ⟨schema, hschema, hentry, first, hfirst, hwritten⟩ :=
    exists_of_mem_left (finish_ok hfinish) (mem_groupNames.mpr ⟨component, hmem, rfl⟩)
  obtain ⟨hfirstMem, hfirstName⟩ := mem_group.mp (List.mem_of_mem_head? hfirst)
  have hpublished : ∀ fields, rename (finalNames components) (.obj first.schema) = .obj fields →
      resolveIn document.schemas (schemaRefPrefix ++ componentName program component.key) = some fields := by
    intro fields hfields
    apply resolveIn_of_get?
    rw [← hname component hmem, ← hentry, ← hfields, ← hwritten]
    apply Entries.get?_of_mem
    · rw [keys_schemas hfinish]
      exact nodup_groupNames
    · exact hschema
  have hown : ∀ other ∈ components, ∀ blueprint, other.Written program components blueprint →
      resolveIn (byToken components) (schemaRefPrefix ++ tokenOf components other.key) =
        some (blueprint.derived (tokenOf components)).1 := by
    intro other hother blueprint hblueprint
    rw [tokenOf_of_mem hordered.nodup hother, resolveIn_of_get? (get?_byToken hordered hother), hblueprint.schema]
  rcases hshared first hfirstMem component hmem hfirstName with hsame | hsame
  · obtain ⟨blueprint, hblueprint⟩ := h.adds.component hfirstMem
    refine ⟨first.key, blueprint, hblueprint.plain, hblueprint.keys, hown first hfirstMem blueprint hblueprint,
      hpublished _ hblueprint.renamed, fun json => ?_⟩
    rw [ownValue_reference hordered hfirstMem, ownValue_reference hordered hmem]
    exact hsame json
  · obtain ⟨blueprint, hblueprint⟩ := h.adds.component hmem
    exact ⟨component.key, blueprint, hblueprint.plain, hblueprint.keys, hown component hmem blueprint hblueprint,
      hpublished _ (hsame.trans hblueprint.renamed), fun json => Iff.rfl⟩

theorem Catalogued.ownValue_of_loopFree (h : Catalogued program registrations components outlined)
    (hfinish : finish components entryRefs = .ok document.schemas) {a b : Component} (ha : a ∈ components)
    (hb : b ∈ components) (hname : a.name = b.name) (hfreeA : LoopFree components a.key)
    (hfreeB : LoopFree components b.key) (json : Json) : OwnValue components a json ↔ OwnValue components b json := by
  obtain ⟨x, y, hx, hy, hsame⟩ := finish_agree hfinish ha hb hname
  have hnormal : ∀ component ∈ components, LoopFree components component.key → ∀ normalized,
      normalizeSchema (byToken components) (.obj component.schema) = .ok normalized →
        ∃ out, normalized = .obj out ∧ SameValues (resolveIn (byToken components)) component.schema out := by
    intro component hmem hfree normalized hnormalize
    obtain ⟨blueprint, hblueprint⟩ := h.adds.component hmem
    have huncut : Uncut (byToken components) [] component.schema := h.adds.uncut hmem hfree fun _ hnil => nomatch hnil
    apply huncut.sameValues h.adds.distinct _ hnormalize
    rw [hblueprint.schema]
    exact Blueprint.distinct hblueprint.plain _
  obtain ⟨out, rfl, hout⟩ := hnormal a ha hfreeA x hx
  obtain ⟨other, rfl, hother⟩ := hnormal b hb hfreeB y hy
  unfold OwnValue
  rw [hout json, hother json]
  exact ⟨accepts_of_canonical hsame, accepts_of_canonical hsame.symm⟩

theorem Publishing.ownValue (h : Publishing (resolveIn (byToken components)) (resolveIn document.schemas)
      (tokenOf components) (componentName program) (keysOf components))
    (hcatalogued : Catalogued program registrations components outlined) {component : Component}
    (hmem : component ∈ components) (json : Json) :
    PublishedValue document component.name json ↔ OwnValue components component json := by
  have halike := h.alike json ⟨[], .component component.key⟩ nofun fun key hkey => by
    rw [List.mem_singleton.mp hkey]
    exact List.mem_map_of_mem hmem
  rw [← ownValue_reference hcatalogued.adds.ordered hmem, PublishedValue, (hcatalogued.adds.settled hmem).1.1]
  exact halike

-- A document admits under every name what each type of that name admits by itself, where types of
-- one name describe one shape.
theorem Catalogued.published_iff (h : Catalogued program registrations components outlined)
    (hfinish : finish components entryRefs = .ok document.schemas) :
    (∀ component ∈ components, ∀ json,
      PublishedValue document component.name json ↔ OwnValue components component json) ↔ SharesShapes components := by
  constructor
  · intro hpublished a ha b hb hname json
    rw [← hpublished a ha json, ← hpublished b hb json, hname]
  · intro hshapes component hmem json
    have hpublishing := h.publishing hfinish fun a ha b hb hname => .inl (hshapes a ha b hb hname)
    exact hpublishing.ownValue h hmem json

theorem Catalogued.sharesShapes (h : Catalogued program registrations components outlined)
    (hfinish : finish components entryRefs = .ok document.schemas) (hwhole : ComparesWhole components) :
    SharesShapes components := by
  rw [← h.published_iff hfinish]
  intro component hmem json
  have hpublishing := h.publishing hfinish fun a ha b hb hname =>
    (hwhole a ha b hb hname (finish_agree hfinish ha hb hname)).imp_left fun hfree =>
      h.ownValue_of_loopFree hfinish ha hb hname hfree.1 hfree.2
  exact hpublishing.ownValue h hmem json

-- What is published under a type's name admits the type's own values, and types of one name that
-- describe different shapes are refused, where no comparison of two types of a name is cut short.
theorem derivedComponents_published (h : derivedComponents program fuel registrations = .ok components) :
    (∀ document, deriveDocument program fuel mappings registrations = .ok document →
      ((∀ component ∈ components, ∀ json,
        PublishedValue document component.name json ↔ OwnValue components component json) ↔ SharesShapes components)) ∧
    (ComparesWhole components →
      (∀ document, deriveDocument program fuel mappings registrations = .ok document → ∀ component ∈ components,
        ∀ json, PublishedValue document component.name json ↔ OwnValue components component json) ∧
      (¬SharesShapes components →
        ∃ error, deriveDocument program fuel mappings registrations = .error error ∧ Refused error)) := by
  obtain ⟨outlined, hcatalogued, hderive⟩ := @deriveDocument_of_components _ _ _ mappings _ _ h
  have hfinished : ∀ document, deriveDocument program fuel mappings registrations = .ok document →
      finish components ((outlined .requests ++ outlined .events ++ outlined .sends).map Outlined.refs) =
        .ok document.schemas := by
    intro document hdocument
    rw [hderive] at hdocument
    cases hfinish : finish components
        ((outlined .requests ++ outlined .events ++ outlined .sends).map Outlined.refs) with
    | error error =>
        rw [hfinish] at hdocument
        cases hdocument
    | ok schemas =>
        rw [hfinish] at hdocument
        cases hdocument
        rfl
  refine ⟨fun document hdocument => hcatalogued.published_iff (hfinished document hdocument), fun hwhole => ⟨?_, ?_⟩⟩
  · intro document hdocument
    have hfinish := hfinished document hdocument
    exact (hcatalogued.published_iff hfinish).mpr (hcatalogued.sharesShapes hfinish hwhole)
  · intro hshapes
    cases hdocument : deriveDocument program fuel mappings registrations with
    | ok document => exact absurd (hcatalogued.sharesShapes (hfinished document hdocument) hwhole) hshapes
    | error error =>
        refine ⟨error, rfl, ?_⟩
        rw [hderive] at hdocument
        cases hfinish : finish components
            ((outlined .requests ++ outlined .events ++ outlined .sends).map Outlined.refs) with
        | error failure =>
            rw [hfinish] at hdocument
            cases hdocument
            exact finish_refused hfinish
        | ok schemas =>
            rw [hfinish] at hdocument
            cases hdocument

end Sharing

section Sample

-- Two modules with a tag and a node each, written alike.
def twinProgram : Program where
  classes := [⟨"Node", "app", "Node", none, none,
      .dataclass [] [("next", .alias (.union "Optional") [.atom (.cls 0), .atom .none])] ["next"]⟩,
    ⟨"Node", "lib", "Node", none, none,
      .dataclass [] [("next", .alias (.union "Optional") [.atom (.cls 1), .atom .none])] ["next"]⟩,
    ⟨"Tag", "app", "Tag", none, none,
      .dataclass [] [("name", .atom (.primitive .str)), ("size", .atom (.primitive .int))] ["name", "size"]⟩,
    ⟨"Tag", "lib", "Tag", none, none,
      .dataclass [] [("name", .atom (.primitive .str)), ("size", .atom (.primitive .int))] ["size", "name"]⟩]
  aliasRepr := fun _ => []

def twinRegistrations : Registrations :=
  ⟨[⟨"a", "", .atom (.cls 0), .declared (.atom (.cls 1))⟩, ⟨"b", "", .atom (.cls 2), .declared (.atom (.cls 3))⟩],
    [], []⟩

def twinComponents : List Component :=
  [⟨.atom (.cls 0), "Node", tokenAt 0, "app.Node",
      recordSchema [("next", .obj (nullable (reference (tokenAt 0)) (some "object")))] ["next"], [.atom (.cls 0)]⟩,
    ⟨.atom (.cls 1), "Node", tokenAt 1, "lib.Node",
      recordSchema [("next", .obj (nullable (reference (tokenAt 1)) (some "object")))] ["next"], [.atom (.cls 1)]⟩,
    ⟨.atom (.cls 2), "Tag", tokenAt 2, "app.Tag",
      recordSchema [("name", .obj (typed "string")), ("size", .obj (typed "integer"))] ["name", "size"], []⟩,
    ⟨.atom (.cls 3), "Tag", tokenAt 3, "lib.Tag",
      recordSchema [("size", .obj (typed "integer")), ("name", .obj (typed "string"))] ["size", "name"], []⟩]

def twinDocument : Document where
  requests := [⟨"a", "", .obj (reference "Node"), some (.obj (reference "Node")), []⟩,
    ⟨"b", "", .obj (reference "Tag"), some (.obj (reference "Tag")), []⟩]
  events := []
  sends := []
  schemas := [("Node", .obj (recordSchema [("next", .obj (nullable (reference "Node") (some "object")))] ["next"])),
    ("Tag", .obj (recordSchema [("name", .obj (typed "string")), ("size", .obj (typed "integer"))] ["name", "size"]))]

theorem twin_components : letI := UnicodeData.ascii
    derivedComponents twinProgram 5 twinRegistrations = .ok twinComponents := by
  rfl

theorem twin_document : letI := UnicodeData.ascii
    deriveDocument twinProgram 5 (fun _ => []) twinRegistrations = .ok twinDocument := by
  rfl

theorem comparesWhole_twins : letI := UnicodeData.ascii; ComparesWhole twinComponents := by
  let _ := UnicodeData.ascii
  intro a ha b hb hname _
  simp only [twinComponents, List.mem_cons, List.not_mem_nil, or_false] at ha hb
  rcases ha with rfl | rfl | rfl | rfl <;> rcases hb with rfl | rfl | rfl | rfl
  case inl.inl | inl.inr.inl | inr.inl.inl | inr.inl.inr.inl => exact .inr rfl
  case inr.inr.inl.inr.inr.inl | inr.inr.inl.inr.inr.inr | inr.inr.inr.inr.inr.inl | inr.inr.inr.inr.inr.inr =>
    exact .inl ⟨loopFree_of_refs_nil rfl, loopFree_of_refs_nil rfl⟩
  all_goals exact absurd hname (by decide)

-- A node of the second module, which is written as the first one's.
theorem derivedComponents_published_twins : letI := UnicodeData.ascii
    derivedComponents twinProgram 5 twinRegistrations = .ok twinComponents ∧
      deriveDocument twinProgram 5 (fun _ => []) twinRegistrations = .ok twinDocument ∧
      ComparesWhole twinComponents ∧ SharesShapes twinComponents ∧
      PublishedValue twinDocument "Node" (.obj [("next", .obj [("next", .null)])]) := by
  let _ := UnicodeData.ascii
  obtain ⟨hiff, hwhole⟩ := @derivedComponents_published UnicodeData.ascii _ _ (fun _ => []) _ _ twin_components
  have hpublished := (hwhole comparesWhole_twins).1 twinDocument twin_document
  refine ⟨twin_components, twin_document, comparesWhole_twins, (hiff twinDocument twin_document).mp hpublished, ?_⟩
  apply (hpublished _ (List.mem_cons_of_mem _ List.mem_cons_self) _).mpr
  have hnode : ∀ next,
      Accepts (resolveIn (byToken twinComponents)) (nullable (reference (tokenAt 1)) (some "object")) next →
      Accepts (resolveIn (byToken twinComponents))
        (recordSchema [("next", .obj (nullable (reference (tokenAt 1)) (some "object")))] ["next"])
        (.obj [("next", next)]) := by
    intro next hnext
    apply accepts_record
    · intro name property hget member hmember hname
      cases List.mem_singleton.mp hmember
      cases hname
      cases hget
      exact hnext
    · simp
  apply hnode
  exact accepts_wrapper (.reference rfl rfl (hnode .null (.null rfl rfl))) (.object _)

-- A type whose items are of the type again, and one of the same name that says nothing of its items' items.
def cutProgram : Program where
  classes := [⟨"Node", "app", "Node", none, none,
      .dataclass [] [("items", .alias .list [.atom (.cls 0)])] ["items"]⟩,
    ⟨"Node", "lib", "Node", none, none, .dataclass [] [("items", .alias .list [.atom (.cls 2)])] ["items"]⟩,
    ⟨"Leaf", "lib", "Leaf", none, none, .dataclass [] [("items", .alias .list [.atom .any])] ["items"]⟩]
  aliasRepr := fun _ => []

def cutRegistrations : Registrations :=
  ⟨[⟨"a", "", .atom (.cls 0), .noPayload⟩, ⟨"b", "", .atom (.cls 1), .noPayload⟩], [], []⟩

def itemsSchema (item : Fields) : Fields := recordSchema [("items", .obj (arraySchema item))] ["items"]

def cutComponents : List Component :=
  [⟨.atom (.cls 0), "Node", tokenAt 0, "app.Node", itemsSchema (reference (tokenAt 0)), [.atom (.cls 0)]⟩,
    ⟨.atom (.cls 1), "Node", tokenAt 1, "lib.Node", itemsSchema (reference (tokenAt 2)), [.atom (.cls 2)]⟩,
    ⟨.atom (.cls 2), "Leaf", tokenAt 2, "lib.Leaf", itemsSchema [], []⟩]

def cutDocument : Document where
  requests := [⟨"a", "", .obj (reference "Node"), none, []⟩, ⟨"b", "", .obj (reference "Node"), none, []⟩]
  events := []
  sends := []
  schemas := [("Leaf", .obj (itemsSchema [])), ("Node", .obj (itemsSchema (reference "Node")))]

theorem cut_components : letI := UnicodeData.ascii
    derivedComponents cutProgram 5 cutRegistrations = .ok cutComponents := by
  rfl

theorem cut_document : letI := UnicodeData.ascii
    deriveDocument cutProgram 5 (fun _ => []) cutRegistrations = .ok cutDocument := by
  rfl

theorem accepts_items_iff {resolve : Str → Option Fields} {item : Fields} {value : Json} :
    Accepts resolve (itemsSchema item) (.obj [("items", .arr [value])]) ↔ Accepts resolve item value := by
  unfold itemsSchema
  rw [accepts_record_iff]
  constructor
  · rintro ⟨members, hmembers, hproperties, -⟩
    cases hmembers
    have hitems := hproperties "items" _ rfl _ List.mem_cons_self rfl
    rw [accepts_array_iff] at hitems
    obtain ⟨elements, helements, hall⟩ := hitems
    cases helements
    exact hall value List.mem_cons_self
  · intro h
    refine ⟨_, rfl, ?_, by simp⟩
    intro name property hget member hmember hname
    cases List.mem_singleton.mp hmember
    cases hname
    cases hget
    exact accepts_array fun element helement => by
      cases List.mem_singleton.mp helement
      exact h

theorem not_published : ¬∀ (program : Program) (fuel : Nat) (registrations : Registrations)
    (components : List Component) (document : Document), letI := UnicodeData.ascii
    derivedComponents program fuel registrations = .ok components →
      deriveDocument program fuel (fun _ => []) registrations = .ok document → ∀ component ∈ components, ∀ json,
        PublishedValue document component.name json ↔ OwnValue components component json := by
  intro hall
  have hnode := hall cutProgram 5 cutRegistrations cutComponents cutDocument cut_components cut_document
    _ (List.mem_cons_of_mem _ List.mem_cons_self) (.obj [("items", .arr [.obj [("items", .arr [.int 1])]])])
  have hown : OwnValue cutComponents
      ⟨.atom (.cls 1), "Node", tokenAt 1, "lib.Node", itemsSchema (reference (tokenAt 2)), [.atom (.cls 2)]⟩
      (.obj [("items", .arr [.obj [("items", .arr [.int 1])]])]) := by
    unfold OwnValue
    rw [accepts_items_iff, accepts_ref_iff rfl]
    exact ⟨itemsSchema [], rfl, accepts_items_iff.mpr (accepts_open _)⟩
  have hpublished := hnode.mpr hown
  have hself : ∀ value, PublishedValue cutDocument "Node" value ↔
      Accepts (resolveIn cutDocument.schemas) (itemsSchema (reference "Node")) value := by
    intro value
    unfold PublishedValue
    rw [accepts_ref_iff rfl]
    constructor
    · rintro ⟨target, htarget, h⟩
      cases htarget
      exact h
    · exact fun h => ⟨_, rfl, h⟩
  change PublishedValue cutDocument "Node" _ at hpublished
  rw [hself, accepts_items_iff] at hpublished
  change PublishedValue cutDocument "Node" _ at hpublished
  rw [hself, accepts_items_iff] at hpublished
  change PublishedValue cutDocument "Node" _ at hpublished
  rw [hself, itemsSchema, accepts_record_iff] at hpublished
  obtain ⟨members, hmembers, -⟩ := hpublished
  cases hmembers

end Sample

end Benzene.Contract.Derivation
