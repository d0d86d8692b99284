import Benzene.Contract.Contexts

namespace Benzene.Contract.Derivation

open Benzene.Data
open Benzene.Mesh (Member)

section Reach

variable (components : List Component)

-- How many references are still to be followed at most.
def unfollowed (seen : List PyType) : Nat :=
  (components.map fun component => if component.key ∈ seen then 0 else component.refs.length).sum

variable {components} {key start : PyType} {pending seen refs : List PyType}

theorem unfollowed_le (key : PyType) : unfollowed components (key :: seen) ≤ unfollowed components seen := by
  induction components with
  | nil => exact Nat.le_refl _
  | cons component rest ih =>
      unfold unfollowed at ih ⊢
      rw [List.map_cons, List.map_cons, List.sum_cons, List.sum_cons]
      apply Nat.add_le_add _ ih
      by_cases hmem : component.key ∈ seen
      · rw [if_pos hmem, if_pos (List.mem_cons_of_mem _ hmem)]
      · rw [if_neg hmem]
        split <;> omega

theorem unfollowed_refs (hnew : key ∉ seen) :
    (refsOf components key).length + unfollowed components (key :: seen) ≤ unfollowed components seen := by
  induction components with
  | nil => exact Nat.le_refl _
  | cons component rest ih =>
      have hrest := @unfollowed_le rest seen key
      unfold unfollowed refsOf at *
      rw [List.map_cons, List.map_cons, List.sum_cons, List.sum_cons]
      by_cases hkey : component.key = key
      · rw [List.find?_cons_of_pos (by simpa using hkey), hkey, if_pos List.mem_cons_self, if_neg hnew, Nat.zero_add]
        exact Nat.add_le_add_left hrest _
      · rw [List.find?_cons_of_neg (by simpa using hkey)]
        have hsame : component.key ∈ key :: seen ↔ component.key ∈ seen := by
          rw [List.mem_cons]
          exact or_iff_right hkey
        simp only [hsame]
        omega

theorem reach_sound {fuel : Nat} (h : key ∈ reach components fuel pending seen) :
    key ∈ seen ∨ ∃ start ∈ pending, Relation.ReflTransGen (Refers components) start key := by
  induction fuel generalizing pending seen with
  | zero => exact .inl h
  | succ fuel ih =>
      cases pending with
      | nil => exact .inl h
      | cons first rest =>
          unfold reach at h
          split at h
          · rcases ih h with hseen | ⟨start, hstart, hleads⟩
            · exact .inl hseen
            · exact .inr ⟨start, List.mem_cons_of_mem _ hstart, hleads⟩
          · rcases ih h with hseen | ⟨start, hstart, hleads⟩
            · rcases List.mem_cons.mp hseen with rfl | hseen
              · exact .inr ⟨key, List.mem_cons_self, .refl⟩
              · exact .inl hseen
            · rcases List.mem_append.mp hstart with hstart | hstart
              · exact .inr ⟨first, List.mem_cons_self, .head hstart hleads⟩
              · exact .inr ⟨start, List.mem_cons_of_mem _ hstart, hleads⟩

-- Everything pending is met, and nothing that is referred to is left out.
theorem reach_complete {fuel : Nat} (hfuel : pending.length + unfollowed components seen ≤ fuel)
    (hclosed : ∀ a ∈ seen, ∀ b, Refers components a b → b ∈ seen ∨ b ∈ pending) :
    (∀ key, key ∈ seen ∨ key ∈ pending → key ∈ reach components fuel pending seen) ∧
      ∀ a ∈ reach components fuel pending seen, ∀ b, Refers components a b →
        b ∈ reach components fuel pending seen := by
  induction fuel generalizing pending seen with
  | zero =>
      have hnil : pending = [] := List.length_eq_zero_iff.mp (by omega)
      subst hnil
      unfold reach
      exact ⟨fun key hkey => hkey.elim id fun hmem => (nomatch hmem),
        fun a ha b hrefers => (hclosed a ha b hrefers).elim id fun hmem => (nomatch hmem)⟩
  | succ fuel ih =>
      cases pending with
      | nil =>
          unfold reach
          exact ⟨fun key hkey => hkey.elim id fun hmem => (nomatch hmem), fun a ha b hrefers =>
            (hclosed a ha b hrefers).elim id fun hmem => (nomatch hmem)⟩
      | cons first rest =>
          rw [List.length_cons] at hfuel
          unfold reach
          split
          · rename_i hmem
            obtain ⟨hreach, hrefers⟩ := @ih rest seen (by omega) (fun a ha b hab => by
              rcases hclosed a ha b hab with hb | hb
              · exact .inl hb
              · rcases List.mem_cons.mp hb with rfl | hb
                · exact .inl hmem
                · exact .inr hb)
            refine ⟨?_, hrefers⟩
            rintro key (hkey | hkey)
            · exact hreach key (.inl hkey)
            · rcases List.mem_cons.mp hkey with rfl | hkey
              · exact hreach _ (.inl hmem)
              · exact hreach key (.inr hkey)
          · rename_i hnew
            have hless := @unfollowed_refs components first seen hnew
            obtain ⟨hreach, hrefers⟩ := @ih (refsOf components first ++ rest) (first :: seen)
              (by rw [List.length_append]; omega) (fun a ha b hab => by
                rcases List.mem_cons.mp ha with rfl | ha
                · exact .inr (List.mem_append_left _ hab)
                · rcases hclosed a ha b hab with hb | hb
                  · exact .inl (List.mem_cons_of_mem _ hb)
                  · rcases List.mem_cons.mp hb with rfl | hb
                    · exact .inl List.mem_cons_self
                    · exact .inr (List.mem_append_right _ hb))
            refine ⟨?_, hrefers⟩
            rintro key (hkey | hkey)
            · exact hreach key (.inl (List.mem_cons_of_mem _ hkey))
            · rcases List.mem_cons.mp hkey with rfl | hkey
              · exact hreach _ (.inl List.mem_cons_self)
              · exact hreach key (.inr (List.mem_append_right _ hkey))

-- What is met from some types is what they lead to.
theorem mem_reached :
    key ∈ reached components refs ↔ ∃ start ∈ refs, Relation.ReflTransGen (Refers components) start key := by
  constructor
  · intro h
    rcases reach_sound h with hmem | hleads
    · cases hmem
    · exact hleads
  · rintro ⟨start, hstart, hleads⟩
    have hfuel : refs.length + unfollowed components [] ≤
        refs.length + (components.map fun component => component.refs.length).sum + 1 := by
      unfold unfollowed
      simp
    obtain ⟨hreach, hrefers⟩ := reach_complete hfuel fun a ha => (nomatch ha)
    induction hleads with
    | refl => exact hreach _ (.inr hstart)
    | tail _ hlast ih => exact hrefers _ ih _ hlast

theorem mem_topicsOf {entryRefs : EntryRefs} {topic : Str} : topic ∈ topicsOf components entryRefs key ↔
    ∃ entry ∈ entryRefs, entry.1 = topic ∧ ∃ start ∈ entry.2, Relation.ReflTransGen (Refers components) start key := by
  unfold topicsOf
  rw [List.mem_map]
  constructor
  · rintro ⟨entry, hentry, rfl⟩
    obtain ⟨hentry, hreached⟩ := List.mem_filter.mp hentry
    exact ⟨entry, hentry, rfl, mem_reached.mp (by simpa using hreached)⟩
  · rintro ⟨entry, hentry, rfl, hleads⟩
    exact ⟨entry, List.mem_filter.mpr ⟨hentry, by simpa using mem_reached.mpr hleads⟩, rfl⟩

end Reach

section Uses

variable [UnicodeData] {program : Program} {context : Context} {pyType key : PyType}

-- Where the types of an entry start.
def Declared.starts (entry : Declared) (context : Context) (pyType : PyType) : Prop :=
  context = topLevel ∧ pyType ∈ entry.types

-- An entry's types lead to a hoisted type.
def Declared.Uses (program : Program) (entry : Declared) (key : PyType) : Prop := Hoists program entry.starts key

theorem Met.mono {start start' : Context → PyType → Prop} (h : Met program start context pyType)
    (hstart : ∀ context pyType, start context pyType → start' context pyType) : Met program start' context pyType := by
  induction h with
  | start h => exact .start (hstart _ _ h)
  | within _ hrule ih => exact .within ih hrule
  | property _ hrule hcontent hproperty htype ih => exact .property ih hrule hcontent hproperty htype

-- Where a type's outline ends in a component, the component's type is met.
theorem Describes.hoists {start : Context → PyType → Prop} {outline : Outline}
    (h : Describes program context pyType outline)
    (hmet : Met program start context pyType) (hkey : key ∈ outline.ending.keys) : Hoists program start key := by
  induction h with
  | schema => cases hkey
  | component hrule =>
      cases List.mem_singleton.mp hkey
      exact ⟨_, _, hmet, hrule⟩
  | within hrule _ ih => exact ih (.within hmet hrule) hkey

variable {registrations : Registrations} {components : List Component} {outlined : Member → List Outlined}

omit [UnicodeData] in
theorem starts_of_declared {member : Member} {entry : Declared} (hentry : entry ∈ registrations.declared member)
    (context : Context) (pyType : PyType) (h : entry.starts context pyType) : registrations.starts context pyType :=
  ⟨h.1, member, entry, hentry, h.2⟩

-- A component refers to what its type's properties lead to, wherever the type is met.
theorem Catalogued.hoists_refers (h : Catalogued program registrations components outlined)
    (hapart : Apart program registrations.starts) {start : Context → PyType → Prop}
    (hstart : ∀ context pyType, start context pyType → registrations.starts context pyType) {a b : PyType}
    (ha : Hoists program start a) (hrefers : Refers components a b) : Hoists program start b := by
  obtain ⟨context, pyType, hmet, hrule⟩ := ha
  have hmem : a ∈ keysOf components := by
    rw [← h.hoists_iff hapart]
    exact ⟨context, pyType, hmet.mono hstart, hrule⟩
  obtain ⟨component, hcomponent, rfl⟩ := mem_keysOf.mp hmem
  obtain ⟨⟨-, -, first, firstType, blueprint, hfirst, hfirstRule, hdescribes, hderived, -⟩, -⟩ :=
    h.adds.settled hcomponent
  have hrefs : component.refs = blueprint.keys := by
    rw [← @Blueprint.derived_keys (tokenOf components), ← hderived]
  rw [Refers, refsOf_of_mem h.adds.ordered.nodup hcomponent, hrefs] at hrefers
  have hsame := (hapart.content_iff (hmet.mono hstart) hrule).mpr ((hapart.content_iff hfirst hfirstRule).mp hdescribes)
  generalize hcontent : content program context component.key = written at hsame
  cases hsame with
  | schema => cases hrefers
  | @record inner properties described hforall =>
      obtain ⟨property, hproperty, hkey⟩ := List.mem_flatMap.mp hrefers
      obtain ⟨source, hsource, -, hdescribed⟩ := exists_of_mem_right hforall hproperty
      cases htype : source.pyType with
      | none =>
          rw [htype] at hdescribed
          rw [hdescribed] at hkey
          cases hkey
      | some other =>
          rw [htype] at hdescribed
          exact hdescribed.hoists (.property hmet hrule hcontent hsource htype) hkey

-- Whatever is met from an entry is derived, and what it refers to is reached from the entry.
theorem Catalogued.describes_reached (h : Catalogued program registrations components outlined)
    (hapart : Apart program registrations.starts) {member : Member} {entry : Declared} {outlinedEntry : Outlined}
    (hentry : entry ∈ registrations.declared member) (hdescribes : DescribesEntry program entry outlinedEntry)
    (hmet : Met program entry.starts context pyType) : ∃ outline, Describes program context pyType outline ∧
      ∀ key ∈ outline.ending.keys, ∃ start ∈ outlinedEntry.keys,
        Relation.ReflTransGen (Refers components) start key := by
  induction hmet with
  | start hstart =>
      obtain ⟨rfl, htype⟩ := hstart
      rcases List.mem_cons.mp htype with rfl | htype
      · exact ⟨outlinedEntry.payload, hdescribes.payload, fun key hkey =>
          ⟨key, List.mem_append_left _ hkey, .refl⟩⟩
      · have hresponse := hdescribes.response
        rw [Option.mem_toList.mp htype] at hresponse
        cases houtline : outlinedEntry.response with
        | none =>
            rw [houtline] at hresponse
            cases hresponse
        | some outline =>
            rw [houtline] at hresponse
            cases hresponse with
            | some hdescribesResponse =>
                refine ⟨outline, hdescribesResponse, fun key hkey => ⟨key, List.mem_append_right _ ?_, .refl⟩⟩
                rw [houtline]
                exact hkey
  | within _ hrule ih =>
      obtain ⟨outline, hdescribed, hkeys⟩ := ih
      cases hdescribed with
      | schema hrule' => rw [hrule] at hrule'; cases hrule'
      | component hrule' => rw [hrule] at hrule'; cases hrule'
      | within hrule' hinner =>
          rw [hrule] at hrule'
          cases hrule'
          exact ⟨_, hinner, hkeys⟩
  | @property context inner pyType key other properties property hmet hrule hcontent hproperty htype ih =>
      obtain ⟨outline, hdescribed, hkeys⟩ := ih
      cases hdescribed with
      | schema hrule' => rw [hrule] at hrule'; cases hrule'
      | within hrule' _ => rw [hrule] at hrule'; cases hrule'
      | component hrule' =>
          rw [hrule] at hrule'
          cases hrule'
          obtain ⟨start, hstart, hleads⟩ := hkeys key (List.mem_singleton_self _)
          have hwhole := hmet.mono (starts_of_declared hentry)
          have hmem : key ∈ keysOf components := (h.hoists_iff hapart).mp ⟨context, pyType, hwhole, hrule⟩
          obtain ⟨component, hcomponent, rfl⟩ := mem_keysOf.mp hmem
          obtain ⟨⟨-, -, first, firstType, blueprint, hfirst, hfirstRule, hfirstContent, hderived, -⟩, -⟩ :=
            h.adds.settled hcomponent
          have hrefs : component.refs = blueprint.keys := by
            rw [← @Blueprint.derived_keys (tokenOf components), ← hderived]
          have hsame := (hapart.content_iff hwhole hrule).mpr ((hapart.content_iff hfirst hfirstRule).mp hfirstContent)
          rw [hcontent] at hsame
          cases hsame with
          | record hforall =>
              obtain ⟨described, hdescribed, -, hdescribesOther⟩ := exists_of_mem_left hforall hproperty
              rw [htype] at hdescribesOther
              refine ⟨described.2, hdescribesOther, fun target htarget => ⟨start, hstart, hleads.tail ?_⟩⟩
              rw [Refers, refsOf_of_mem h.adds.ordered.nodup hcomponent, hrefs]
              exact List.mem_flatMap.mpr ⟨described, hdescribed, htarget⟩

-- What is reached from an entry's references is what its types lead to.
theorem Catalogued.uses_iff (h : Catalogued program registrations components outlined)
    (hapart : Apart program registrations.starts) {member : Member} {entry : Declared} {outlinedEntry : Outlined}
    (hentry : entry ∈ registrations.declared member) (hdescribes : DescribesEntry program entry outlinedEntry) :
    (∃ start ∈ outlinedEntry.keys, Relation.ReflTransGen (Refers components) start key) ↔ entry.Uses program key := by
  constructor
  · rintro ⟨start, hstart, hleads⟩
    induction hleads with
    | refl =>
        rcases List.mem_append.mp hstart with hstart | hstart
        · exact hdescribes.payload.hoists (.start ⟨rfl, List.mem_cons_self⟩) hstart
        · have hresponse := hdescribes.response
          cases houtline : outlinedEntry.response with
          | none =>
              rw [houtline] at hstart
              cases hstart
          | some outline =>
              rw [houtline] at hstart hresponse
              generalize hdeclared : entry.response = response at hresponse
              cases hresponse with
              | some hdescribesResponse =>
                  refine hdescribesResponse.hoists (.start ⟨rfl, ?_⟩) hstart
                  unfold Declared.types
                  rw [hdeclared]
                  exact List.mem_cons_of_mem _ (List.mem_singleton_self _)
    | tail _ hlast ih => exact h.hoists_refers hapart (starts_of_declared hentry) ih hlast
  · rintro ⟨context, pyType, hmet, hrule⟩
    obtain ⟨outline, hdescribed, hkeys⟩ := h.describes_reached hapart hentry hdescribes hmet
    cases hdescribed with
    | schema hrule' => rw [hrule] at hrule'; cases hrule'
    | within hrule' _ => rw [hrule] at hrule'; cases hrule'
    | component hrule' =>
        rw [hrule] at hrule'
        cases hrule'
        exact hkeys _ (List.mem_singleton_self _)

end Uses

section Collisions

variable {recur : Context → PyType → Deriving Derived}

-- Deriving fails where there is not enough fuel, and nowhere else.
def Exhausts (recur : Context → PyType → Deriving Derived) : Prop :=
  ∀ {context pyType before error}, recur context pyType before = .error error → error = .error .recursionError

theorem Exhausts.properties (h : Exhausts recur) {context : Context} {properties : List Property}
    {before : List Component} {error : DeriveError}
    (herror : deriveProperties recur context properties before = .error error) : error = .error .recursionError := by
  induction properties generalizing before with
  | nil => cases herror
  | cons property rest ih =>
      rw [deriveProperties_cons] at herror
      rcases Except.bind_eq_error.mp herror with hfirst | ⟨first, -, herror⟩
      · cases htype : property.pyType with
        | none =>
            rw [htype] at hfirst
            cases hfirst
        | some pyType =>
            rw [htype] at hfirst
            exact h hfirst
      · rcases Except.bind_eq_error.mp herror with hrest | ⟨others, -, herror⟩
        · exact ih hrest
        · cases herror

variable [UnicodeData] {program : Program}

theorem Exhausts.component (h : Exhausts recur) {context : Context} {key : PyType} {before : List Component}
    {error : DeriveError} (herror : deriveComponent program recur context key before = .error error) :
    error = .error .recursionError := by
  unfold deriveComponent at herror
  split at herror
  · cases herror
  · rcases Except.bind_eq_error.mp herror with hcontent | ⟨derived, -, herror⟩
    · unfold deriveContent at hcontent
      split at hcontent
      · cases hcontent
      · rcases Except.bind_eq_error.mp hcontent with hproperties | ⟨derived, -, hcontent⟩
        · exact h.properties hproperties
        · cases hcontent
    · cases herror

theorem exhausts_derive (fuel : Nat) : Exhausts (derive program fuel) := by
  induction fuel with
  | zero =>
      intro context pyType before error herror
      cases herror
      rfl
  | succ fuel ih =>
      intro context pyType before error herror
      unfold derive at herror
      split at herror
      · cases herror
      · rcases Except.bind_eq_error.mp herror with hinner | ⟨derived, -, herror⟩
        · exact ih hinner
        · cases herror
      · rcases Except.bind_eq_error.mp herror with hcomponent | ⟨derived, -, herror⟩
        · exact ih.component hcomponent
        · cases herror

variable {fuel : Nat} {components : List Component} {entryRefs : EntryRefs}

theorem deriveEntries_error {entries : List Declared} {before : List Component} {error : DeriveError}
    (herror : deriveEntries program fuel entries before = .error error) : error = .error .recursionError := by
  induction entries generalizing before with
  | nil => cases herror
  | cons entry rest ih =>
      unfold deriveEntries at herror
      rcases Except.bind_eq_error.mp herror with hentry | ⟨first, -, herror⟩
      · unfold deriveEntry at hentry
        rcases Except.bind_eq_error.mp hentry with hpayload | ⟨payload, -, hentry⟩
        · exact exhausts_derive fuel hpayload
        · cases hdeclared : entry.response with
          | none =>
              rw [hdeclared] at hentry
              cases hentry
          | some pyType =>
              rw [hdeclared] at hentry
              rcases Except.bind_eq_error.mp hentry with hresponse | ⟨response, -, hentry⟩
              · exact exhausts_derive fuel hresponse
              · cases hentry
      · rcases Except.bind_eq_error.mp herror with hrest | ⟨others, -, herror⟩
        · exact ih hrest
        · cases herror

-- Two components of one name that are normalized to two schemas.
structure Collides (components : List Component) (first other : Component) : Prop where
  left : first ∈ components
  right : other ∈ components
  name : first.name = other.name
  ne : first.key ≠ other.key
  differ : ∃ a b, normalizeSchema (byToken components) (.obj first.schema) = .ok a ∧
    normalizeSchema (byToken components) (.obj other.schema) = .ok b ∧ a.canonical ≠ b.canonical

theorem normalizeComponent_ok {component : Component} {normalized : Json} :
    normalizeComponent components component = .ok normalized ↔
      normalizeSchema (byToken components) (.obj component.schema) = .ok normalized := by
  unfold normalizeComponent
  cases normalizeSchema (byToken components) (.obj component.schema) with
  | ok value => simp
  | error error => simp

theorem normalizeComponent_collision {component : Component} {name : Str} {types : Str × Str} {topics : List Str} :
    normalizeComponent components component ≠ .error (.collision name types topics) := by
  unfold normalizeComponent
  split <;> simp

theorem checkGroup_error {first : Component} {reference : Json} {others : List Component} {name : Str}
    {types : Str × Str} {topics : List Str}
    (herror : checkGroup components entryRefs first reference others = .error (.collision name types topics)) :
    ∃ other ∈ others, ∃ normalized,
      normalizeComponent components other = .ok normalized ∧ normalized.canonical ≠ reference.canonical ∧
        DeriveError.collision name types topics = collisionOf components entryRefs first other := by
  induction others with
  | nil => cases herror
  | cons other rest ih =>
      rw [checkGroup] at herror
      rcases Except.bind_eq_error.mp herror with hother | ⟨normalized, hnormalized, herror⟩
      · exact absurd hother normalizeComponent_collision
      · split at herror
        · rename_i hdiffer
          cases herror
          exact ⟨other, List.mem_cons_self, normalized, hnormalized, hdiffer, rfl⟩
        · obtain ⟨another, hanother, h⟩ := ih herror
          exact ⟨another, List.mem_cons_of_mem _ hanother, h⟩

-- A catalogue that does not settle names two components that collide.
theorem finish_collision (hordered : Ordered components) {name : Str} {types : Str × Str} {topics : List Str}
    (herror : finish components entryRefs = .error (.collision name types topics)) :
    ∃ first other, Collides components first other ∧
      DeriveError.collision name types topics = collisionOf components entryRefs first other := by
  rcases Except.bind_eq_error.mp herror with herror | ⟨settled, -, herror⟩
  · obtain ⟨groupName, -, herror⟩ := Except.exists_of_mapM_eq_error herror
    unfold settleGroup at herror
    split at herror
    · cases herror
    · rename_i first others hgroup
      rcases Except.bind_eq_error.mp herror with hfirst | ⟨reference, hreference, herror⟩
      · exact absurd hfirst normalizeComponent_collision
      · rcases Except.bind_eq_error.mp herror with hcheck | ⟨checked, -, herror⟩
        · obtain ⟨other, hother, normalized, hnormalized, hdiffer, hcollision⟩ := checkGroup_error hcheck
          have hmember : ∀ component ∈ first :: others, component ∈ components ∧ component.name = groupName := by
            intro component hmem
            rw [← hgroup] at hmem
            exact mem_group.mp hmem
          have hnodup : (keysOf (first :: others)).Nodup := by
            have hperm : (keysOf (group components groupName)).Perm
                (keysOf (components.filter fun component => component.name = groupName)) := (sortOn_perm _ _).map _
            rw [← hgroup, hperm.nodup_iff]
            exact hordered.nodup.sublist (List.filter_sublist.map _)
          have hne : first.key ≠ other.key := by
            intro hsame
            apply (List.nodup_cons.mp hnodup).1
            show first.key ∈ keysOf others
            rw [hsame]
            exact List.mem_map_of_mem hother
          obtain ⟨hfirst, hfirstName⟩ := hmember first List.mem_cons_self
          obtain ⟨hother, hotherName⟩ := hmember other (List.mem_cons_of_mem _ hother)
          exact ⟨first, other, ⟨hfirst, hother, hfirstName.trans hotherName.symm, hne, reference, normalized,
            normalizeComponent_ok.mp hreference, normalizeComponent_ok.mp hnormalized, hdiffer.symm⟩, hcollision⟩
        · cases herror
  · cases herror

end Collisions

section Topics

variable [UnicodeData] {program : Program} {start : Context → PyType → Prop} {registrations : Registrations}
  {components : List Component} {outlined : Member → List Outlined} {context : Context} {pyType key : PyType}

theorem met_from_entry (hmet : Met program registrations.starts context pyType) :
    ∃ member, ∃ entry ∈ registrations.declared member, Met program entry.starts context pyType := by
  induction hmet with
  | start hstart =>
      obtain ⟨hcontext, member, entry, hentry, htype⟩ := hstart
      exact ⟨member, entry, hentry, .start ⟨hcontext, htype⟩⟩
  | within _ hrule ih =>
      obtain ⟨member, entry, hentry, hmet⟩ := ih
      exact ⟨member, entry, hentry, .within hmet hrule⟩
  | property _ hrule hcontent hproperty htype ih =>
      obtain ⟨member, entry, hentry, hmet⟩ := ih
      exact ⟨member, entry, hentry, .property hmet hrule hcontent hproperty htype⟩

-- A component's topics are those of the entries whose types lead to it.
theorem Catalogued.mem_topicsOf (h : Catalogued program registrations components outlined)
    (hapart : Apart program registrations.starts) {topic : Str} :
    topic ∈ topicsOf components ((outlined .requests ++ outlined .events ++ outlined .sends).map Outlined.refs) key ↔
      ∃ member, ∃ entry ∈ registrations.declared member, entry.topic = topic ∧ entry.Uses program key := by
  rw [Derivation.mem_topicsOf]
  have hmember : ∀ entry, entry ∈ outlined .requests ++ outlined .events ++ outlined .sends ↔
      ∃ member, entry ∈ outlined member := by
    intro entry
    rw [List.mem_append, List.mem_append]
    constructor
    · rintro ((hentry | hentry) | hentry)
      · exact ⟨.requests, hentry⟩
      · exact ⟨.events, hentry⟩
      · exact ⟨.sends, hentry⟩
    · rintro ⟨member, hentry⟩
      cases member with
      | requests => exact .inl (.inl hentry)
      | events => exact .inl (.inr hentry)
      | sends => exact .inr hentry
  constructor
  · rintro ⟨refs, hrefs, rfl, hleads⟩
    obtain ⟨outlinedEntry, houtlined, rfl⟩ := List.mem_map.mp hrefs
    obtain ⟨member, houtlined⟩ := (hmember _).mp houtlined
    obtain ⟨entry, hentry, hdescribes⟩ := exists_of_mem_right (h.entries member) houtlined
    refine ⟨member, entry, hentry, ?_, (h.uses_iff hapart hentry hdescribes).mp hleads⟩
    show _ = outlinedEntry.declared.topic
    rw [hdescribes.same]
  · rintro ⟨member, entry, hentry, rfl, huses⟩
    obtain ⟨outlinedEntry, houtlined, hdescribes⟩ := exists_of_mem_left (h.entries member) hentry
    refine ⟨outlinedEntry.refs, List.mem_map_of_mem ((hmember _).mpr ⟨member, houtlined⟩), ?_,
      (h.uses_iff hapart hentry hdescribes).mpr huses⟩
    show outlinedEntry.declared.topic = _
    rw [hdescribes.same]

-- Where there is enough fuel, a document is what its catalogue is finished to.
theorem deriveDocument_catalogued {fuel : Nat} {mappings : Str × Str → List (Str × Str)}
    (h : deriveDocument program fuel mappings registrations ≠ .error (.error .recursionError)) :
    ∃ components outlined, Catalogued program registrations components outlined ∧
      deriveDocument program fuel mappings registrations =
        (finish components ((outlined .requests ++ outlined .events ++ outlined .sends).map Outlined.refs)).map
          (Outlined.published (componentName program) mappings outlined) := by
  cases hrequests : deriveEntries program fuel (registrations.declared .requests) [] with
  | error error =>
      apply absurd _ h
      unfold deriveDocument
      rw [hrequests, deriveEntries_error hrequests]
      rfl
  | ok requests =>
      cases hevents : deriveEntries program fuel (registrations.declared .events) requests.2 with
      | error error =>
          apply absurd _ h
          unfold deriveDocument
          rw [hrequests]
          dsimp only [bind, Except.bind]
          rw [hevents, deriveEntries_error hevents]
      | ok events =>
          cases hsends : deriveEntries program fuel (registrations.declared .sends) events.2 with
          | error error =>
              apply absurd _ h
              unfold deriveDocument
              rw [hrequests]
              dsimp only [bind, Except.bind]
              rw [hevents]
              dsimp only
              rw [hsends, deriveEntries_error hsends]
          | ok sends => exact ⟨sends.2, deriveDocument_eq hrequests hevents hsends⟩

-- A document is refused for two types that claim one name and have two schemas; the topics that are
-- named are those whose types lead to either, in order and once each.
theorem deriveDocument_collision {fuel : Nat} {mappings : Str × Str → List (Str × Str)} {name : Str} {types : Str × Str}
    {topics : List Str} (h : deriveDocument program fuel mappings registrations = .error (.collision name types topics))
    (hapart : Apart program registrations.starts) : ∃ components first other, Collides components first other ∧
      (∀ key, key ∈ keysOf components ↔ Hoists program registrations.starts key) ∧
      componentName program first.key = name ∧ componentName program other.key = name ∧
      types = (qualified program first.key, qualified program other.key) ∧ topics ≠ [] ∧ topics.Pairwise (· < ·) ∧
      ∀ topic, topic ∈ topics ↔ ∃ member, ∃ entry ∈ registrations.declared member,
        entry.topic = topic ∧ (entry.Uses program first.key ∨ entry.Uses program other.key) := by
  have hterminates : deriveDocument program fuel mappings registrations ≠ .error (.error .recursionError) := by
    rw [h]
    nofun
  obtain ⟨components, outlined, hcatalogued, heq⟩ := deriveDocument_catalogued hterminates
  rw [heq] at h
  have hordered := hcatalogued.adds.ordered
  cases hfinish : finish components ((outlined .requests ++ outlined .events ++ outlined .sends).map Outlined.refs) with
  | ok schemas =>
      rw [hfinish] at h
      cases h
  | error error =>
      rw [hfinish] at h
      cases h
      obtain ⟨first, other, hcollides, hcollision⟩ := finish_collision hordered hfinish
      unfold collisionOf at hcollision
      cases hcollision
      have hfirst := (hcatalogued.adds.settled hcollides.left).1
      have hother := (hcatalogued.adds.settled hcollides.right).1
      let entryRefs : EntryRefs := (outlined .requests ++ outlined .events ++ outlined .sends).map Outlined.refs
      have hmem : ∀ topic, topic ∈ Str.sorted (distinct
            (topicsOf components entryRefs first.key ++ topicsOf components entryRefs other.key)) ↔
          ∃ member, ∃ entry ∈ registrations.declared member,
            entry.topic = topic ∧ (entry.Uses program first.key ∨ entry.Uses program other.key) := by
        intro topic
        rw [(Str.sorted_perm _).mem_iff, mem_distinct, List.mem_append, hcatalogued.mem_topicsOf hapart,
          hcatalogued.mem_topicsOf hapart]
        constructor
        · rintro (⟨member, entry, hentry, htopic, huses⟩ | ⟨member, entry, hentry, htopic, huses⟩)
          · exact ⟨member, entry, hentry, htopic, .inl huses⟩
          · exact ⟨member, entry, hentry, htopic, .inr huses⟩
        · rintro ⟨member, entry, hentry, htopic, huses | huses⟩
          · exact .inl ⟨member, entry, hentry, htopic, huses⟩
          · exact .inr ⟨member, entry, hentry, htopic, huses⟩
      refine ⟨components, first, other, hcollides, fun key => (hcatalogued.hoists_iff hapart).symm, hfirst.1.symm, ?_,
        ?_, ?_, Str.sorted_strict (nodup_distinct _), hmem⟩
      · rw [hcollides.name, hother.1]
      · rw [hfirst.2.1, hother.2.1]
      · obtain ⟨context, pyType, hmet, hrule⟩ := hcatalogued.hoists hcollides.left
        obtain ⟨member, entry, hentry, hmet⟩ := met_from_entry hmet
        have htopic := (hmem entry.topic).mpr ⟨member, entry, hentry, rfl, .inl ⟨context, pyType, hmet, hrule⟩⟩
        exact List.ne_nil_of_mem htopic

end Topics

section Sample

def itemProgram : Program where
  classes := [⟨"Item", "orders", "Item", none, none, .dataclass [] [("sku", .atom (.primitive .str))] ["sku"]⟩,
    ⟨"Item", "stock", "Item", none, none, .dataclass [] [("count", .atom (.primitive .int))] ["count"]⟩]
  aliasRepr := fun _ => []

def itemRegistrations : Registrations :=
  ⟨[⟨"stock:set", "", .alias .list [.atom (.cls 1)], .noPayload⟩, ⟨"orders:add", "", .atom (.cls 0), .noPayload⟩,
    ⟨"ping", "", .atom (.primitive .str), .noPayload⟩], [], []⟩

theorem deriveDocument_items : letI := UnicodeData.ascii
    deriveDocument itemProgram 3 (fun _ => []) itemRegistrations =
      .error (.collision "Item" ("orders.Item", "stock.Item") ["orders:add", "stock:set"]) := by
  rfl

theorem apart_items : letI := UnicodeData.ascii; Apart itemProgram itemRegistrations.starts := by
  let _ := UnicodeData.ascii
  apply apart_of_noRootModels
  intro definition hmem root serialized hkind
  rcases List.mem_cons.mp hmem with rfl | hmem
  · cases hkind
  · cases List.mem_singleton.mp hmem
    cases hkind

theorem deriveDocument_collision_items : letI := UnicodeData.ascii
    ∃ components first other, Collides components first other ∧
      (∀ key, key ∈ keysOf components ↔ Hoists itemProgram itemRegistrations.starts key) ∧
      componentName itemProgram first.key = "Item" ∧ componentName itemProgram other.key = "Item" ∧
      (("orders.Item", "stock.Item") : Str × Str) = (qualified itemProgram first.key, qualified itemProgram other.key) ∧
      (["orders:add", "stock:set"] : List Str) ≠ [] ∧ (["orders:add", "stock:set"] : List Str).Pairwise (· < ·) ∧
      ∀ topic, topic ∈ (["orders:add", "stock:set"] : List Str) ↔ ∃ member, ∃ entry ∈ itemRegistrations.declared member,
        entry.topic = topic ∧ (entry.Uses itemProgram first.key ∨ entry.Uses itemProgram other.key) := by
  exact @deriveDocument_collision UnicodeData.ascii _ _ _ _ _ _ _ deriveDocument_items apart_items

end Sample

end Benzene.Contract.Derivation
