import Benzene.Contract.Shape

namespace Benzene.Contract

open Benzene.Data

section References

namespace Shape

mutual

-- The names that a shape itself refers to.
def refs : Shape → List Str
  | .value _ => []
  | .failed _ => []
  | .ref name => [name]
  | .properties members => refsMembers members
  | .branches items => refsItems items
  | .node _ keywords => refsMembers keywords

def refsMembers : List (Str × Shape) → List Str
  | [] => []
  | (_, shape) :: rest => refs shape ++ refsMembers rest

def refsItems : List Shape → List Str
  | [] => []
  | shape :: rest => refs shape ++ refsItems rest

end

theorem mem_refsMembers {name : Str} {members : List (Str × Shape)} :
    name ∈ refsMembers members ↔ ∃ member ∈ members, name ∈ member.2.refs := by
  induction members with
  | nil => simp [refsMembers]
  | cons member rest ih => simp [refsMembers, ih]

theorem mem_refsItems {name : Str} {items : List Shape} :
    name ∈ refsItems items ↔ ∃ item ∈ items, name ∈ item.refs := by
  induction items with
  | nil => simp [refsItems]
  | cons item rest ih => simp [refsItems, ih]

variable {expand expand' : Str → Except PyError Json} {expanding : List Str}

theorem unfoldMembers_congr {members : List (Str × Shape)} (h : ∀ member ∈ members,
    member.2.unfold expand expanding = member.2.unfold expand' expanding) :
    unfoldMembers expand expanding members = unfoldMembers expand' expanding members := by
  induction members with
  | nil => rfl
  | cons member rest ih =>
      simp only [unfoldMembers, h member List.mem_cons_self,
        ih fun other hm => h other (List.mem_cons_of_mem _ hm)]

theorem unfoldItems_congr {items : List Shape} (h : ∀ item ∈ items,
    item.unfold expand expanding = item.unfold expand' expanding) :
    unfoldItems expand expanding items = unfoldItems expand' expanding items := by
  induction items with
  | nil => rfl
  | cons item rest ih =>
      simp only [unfoldItems, h item List.mem_cons_self,
        ih fun other hm => h other (List.mem_cons_of_mem _ hm)]

-- Only the references that are not cut are expanded.
theorem unfold_congr (shape : Shape)
    (h : ∀ name ∈ shape.refs, name ∉ expanding → expand name = expand' name) :
    shape.unfold expand expanding = shape.unfold expand' expanding := by
  induction shape using Shape.induct with
  | value json => rfl
  | failed error => rfl
  | ref name =>
      simp only [unfold]
      by_cases hcut : name ∈ expanding
      · rw [if_pos hcut, if_pos hcut]
      · rw [if_neg hcut, if_neg hcut]
        exact h name (by simp [refs]) hcut
  | properties members ih =>
      have hmembers := unfoldMembers_congr fun member hm =>
        ih member hm fun name hn => h name (by rw [refs, mem_refsMembers]; exact ⟨member, hm, hn⟩)
      simp only [unfold, hmembers]
  | branches items ih =>
      have hitems := unfoldItems_congr fun item hm =>
        ih item hm fun name hn => h name (by rw [refs, mem_refsItems]; exact ⟨item, hm, hn⟩)
      simp only [unfold, hitems]
  | node wraps keywords ih =>
      have hkeywords := unfoldMembers_congr fun keyword hm =>
        ih keyword hm fun name hn => h name (by rw [refs, mem_refsMembers]; exact ⟨keyword, hm, hn⟩)
      simp only [unfold, hkeywords]

end Shape

end References

section Injectivity

-- Two computations that return, up to the order of members, one value.
def Agree (x y : Except PyError Json) : Prop :=
  ∃ v w, x = .ok v ∧ y = .ok w ∧ v.canonical = w.canonical

theorem canonical_eq_empty {value : Json} (h : (Json.obj []).canonical = value.canonical) :
    value = .obj [] := by
  cases value with
  | obj fields =>
      rw [Json.canonical_obj, Json.canonical_obj] at h
      have hlength := congrArg List.length (Json.obj.inj h)
      rw [(sortOn_perm Prod.fst _).length_eq, (sortOn_perm Prod.fst _).length_eq] at hlength
      have hnil : fields = [] := by simpa [Entries.mapValues] using hlength.symm
      rw [hnil]
  | arr items =>
      rw [Json.canonical_arr, Json.canonical_obj] at h
      cases h
  | null | bool _ | int _ | float _ | str _ =>
      rw [Json.canonical_obj] at h
      cases h

namespace Shape

mutual

-- The keys differ, and a nullable wrapper refers to what it wraps only.
def Sound : Shape → Prop
  | .properties members => (Entries.keys members).Nodup ∧ SoundMembers members
  | .branches items => SoundItems items
  | .node wraps keywords => (Entries.keys keywords).Nodup ∧ SoundMembers keywords ∧
      ∀ wrapped, wraps = some wrapped → ∀ name ∈ refsMembers keywords, name = wrapped
  | _ => True

def SoundMembers : List (Str × Shape) → Prop
  | [] => True
  | (_, shape) :: rest => shape.Sound ∧ SoundMembers rest

def SoundItems : List Shape → Prop
  | [] => True
  | shape :: rest => shape.Sound ∧ SoundItems rest

end

theorem soundMembers_iff {members : List (Str × Shape)} :
    SoundMembers members ↔ ∀ member ∈ members, member.2.Sound := by
  induction members with
  | nil => simp [SoundMembers]
  | cons member rest ih => rw [SoundMembers, ih, List.forall_mem_cons]

theorem soundItems_iff {items : List Shape} : SoundItems items ↔ ∀ item ∈ items, item.Sound := by
  induction items with
  | nil => simp [SoundItems]
  | cons item rest ih => rw [SoundItems, ih, List.forall_mem_cons]

variable {expand expand' : Str → Except PyError Json} {expanding : List Str}

-- Members unfold if each of them does, and then key by key.
theorem unfoldMembers_ok {members : List (Str × Shape)}
    (h : ∀ member ∈ members, ∃ value, member.2.unfold expand expanding = .ok value) :
    ∃ out, unfoldMembers expand expanding members = .ok out := by
  induction members with
  | nil => exact ⟨[], rfl⟩
  | cons member rest ih =>
      obtain ⟨key, shape⟩ := member
      obtain ⟨hmember, hrest⟩ := List.forall_mem_cons.mp h
      obtain ⟨value, hvalue⟩ := hmember
      obtain ⟨out, hout⟩ := ih hrest
      refine ⟨(key, value) :: out, ?_⟩
      rw [unfoldMembers_cons, hvalue, hout]
      rfl

theorem get?_unfoldMembers {members : List (Str × Shape)} {out : Fields}
    (h : unfoldMembers expand expanding members = .ok out) (key : Str) :
    (Entries.get? key out).map .ok = (Entries.get? key members).map (unfold expand expanding) := by
  induction members generalizing out with
  | nil =>
      cases h
      rfl
  | cons member rest ih =>
      obtain ⟨name, shape⟩ := member
      obtain ⟨value, hvalue, h⟩ := Except.bind_eq_ok.mp h
      obtain ⟨values, hvalues, h⟩ := Except.bind_eq_ok.mp h
      cases h
      rw [Entries.get?_cons, Entries.get?_cons]
      by_cases hkey : name = key
      · rw [if_pos hkey, if_pos hkey, Option.map_some, Option.map_some, hvalue]
      · rw [if_neg hkey, if_neg hkey]
        exact ih hvalues

theorem unfoldMembers_agree {members : List (Str × Shape)} {out out' : Fields}
    (h : unfoldMembers expand expanding members = .ok out)
    (h' : unfoldMembers expand' expanding members = .ok out')
    (hsame : Entries.mapValues Json.canonical out = Entries.mapValues Json.canonical out') :
    ∀ member ∈ members, Agree (member.2.unfold expand expanding) (member.2.unfold expand' expanding) := by
  induction members generalizing out out' with
  | nil => simp
  | cons member rest ih =>
      obtain ⟨key, shape⟩ := member
      rw [unfoldMembers_cons, Except.bind_eq_ok] at h h'
      obtain ⟨value, hv, h⟩ := h
      obtain ⟨value', hv', h'⟩ := h'
      obtain ⟨values, hr, h⟩ := Except.bind_eq_ok.mp h
      obtain ⟨values', hr', h'⟩ := Except.bind_eq_ok.mp h'
      cases h
      cases h'
      simp only [Entries.mapValues, List.map_cons, List.cons.injEq, Prod.mk.injEq, true_and] at hsame
      obtain ⟨hhead, htail⟩ := hsame
      rw [List.forall_mem_cons]
      exact ⟨⟨value, value', hv, hv', hhead⟩, ih hr hr' htail⟩

theorem unfoldItems_agree {items : List Shape} {out out' : List Json}
    (h : unfoldItems expand expanding items = .ok out)
    (h' : unfoldItems expand' expanding items = .ok out')
    (hsame : out.map Json.canonical = out'.map Json.canonical) :
    ∀ item ∈ items, Agree (item.unfold expand expanding) (item.unfold expand' expanding) := by
  induction items generalizing out out' with
  | nil => simp
  | cons shape rest ih =>
      simp only [unfoldItems] at h h'
      obtain ⟨value, hv, h⟩ := Except.bind_eq_ok.mp h
      obtain ⟨value', hv', h'⟩ := Except.bind_eq_ok.mp h'
      obtain ⟨values, hr, h⟩ := Except.bind_eq_ok.mp h
      obtain ⟨values', hr', h'⟩ := Except.bind_eq_ok.mp h'
      cases h
      cases h'
      simp only [List.map_cons, List.cons.injEq] at hsame
      obtain ⟨hhead, htail⟩ := hsame
      rw [List.forall_mem_cons]
      exact ⟨⟨value, value', hv, hv', hhead⟩, ih hr hr' htail⟩

-- Members unfold to one canonical form only if each of them does.
theorem unfoldMembers_inj {members : List (Str × Shape)} (hnodup : (Entries.keys members).Nodup)
    {out out' : Fields} (h : unfoldMembers expand expanding members = .ok out)
    (h' : unfoldMembers expand' expanding members = .ok out')
    (hsame : (Json.obj out).canonical = (Json.obj out').canonical) :
    ∀ member ∈ members, Agree (member.2.unfold expand expanding) (member.2.unfold expand' expanding) := by
  apply unfoldMembers_agree h h'
  have hkeys := keys_unfoldMembers h
  have hkeys' := keys_unfoldMembers h'
  exact Json.canonical_obj_inj (hkeys.trans hkeys'.symm) (hkeys ▸ hnodup) hsame

-- What a shape unfolds to tells what its references expand to.
theorem unfold_inj {shape : Shape} (hs : shape.Sound)
    (h : Agree (shape.unfold expand expanding) (shape.unfold expand' expanding)) :
    ∀ name ∈ shape.refs, name ∉ expanding → Agree (expand name) (expand' name) := by
  induction shape using Shape.induct with
  | value json => simp [refs]
  | failed error => simp [refs]
  | ref name =>
      intro other hother hcut
      simp only [refs, List.mem_singleton] at hother
      subst hother
      simpa only [unfold, hcut, if_false] using h
  | properties members ih =>
      intro name hname hcut
      rw [refs, mem_refsMembers] at hname
      obtain ⟨member, hm, hname⟩ := hname
      obtain ⟨v, w, hv, hw, hsame⟩ := h
      simp only [unfold] at hv hw
      obtain ⟨out, hout, hv⟩ := Except.bind_eq_ok.mp hv
      obtain ⟨out', hout', hw⟩ := Except.bind_eq_ok.mp hw
      cases hv
      cases hw
      obtain ⟨hnodup, hmembers⟩ := hs
      have hall := unfoldMembers_inj hnodup hout hout' hsame member hm
      exact ih member hm (soundMembers_iff.mp hmembers member hm) hall name hname hcut
  | branches items ih =>
      intro name hname hcut
      rw [refs, mem_refsItems] at hname
      obtain ⟨item, hm, hname⟩ := hname
      obtain ⟨v, w, hv, hw, hsame⟩ := h
      simp only [unfold] at hv hw
      obtain ⟨out, hout, hv⟩ := Except.bind_eq_ok.mp hv
      obtain ⟨out', hout', hw⟩ := Except.bind_eq_ok.mp hw
      cases hv
      cases hw
      rw [Json.canonical_arr, Json.canonical_arr] at hsame
      have hall := unfoldItems_agree hout hout' (Json.arr.inj hsame) item hm
      exact ih item hm (soundItems_iff.mp hs item hm) hall name hname hcut
  | node wraps keywords ih =>
      intro name hname hcut
      obtain ⟨hnodup, hkeywords, hwraps⟩ := hs
      have hopen : wraps.any (· ∈ expanding) = false := by
        cases wraps with
        | none => rfl
        | some wrapped =>
            have heq : name = wrapped := hwraps wrapped rfl name (by rw [refs] at hname; exact hname)
            subst heq
            simpa using hcut
      rw [refs, mem_refsMembers] at hname
      obtain ⟨keyword, hm, hname⟩ := hname
      obtain ⟨v, w, hv, hw, hsame⟩ := h
      simp only [unfold] at hv hw
      obtain ⟨out, hout, hv⟩ := Except.bind_eq_ok.mp hv
      obtain ⟨out', hout', hw⟩ := Except.bind_eq_ok.mp hw
      rw [hopen] at hv hw
      cases hv
      cases hw
      have hall := unfoldMembers_inj hnodup hout hout' hsame keyword hm
      exact ih keyword hm (soundMembers_iff.mp hkeywords keyword hm) hall name hname hcut

end Shape

-- A keyword that holds no schema. Only the names of `required` may be unfit.
def Plain (keyword : Str × Shape) : Prop :=
  (∃ json, keyword.2 = .value json) ∨ keyword.1 = "required" ∧ ∃ error, keyword.2 = .failed error

theorem Plain.sound {keyword : Str × Shape} (h : Plain keyword) : keyword.2.Sound := by
  rcases h with ⟨json, h⟩ | ⟨-, error, h⟩
  · rw [h]
    trivial
  · rw [h]
    trivial

variable [UnicodeData]

theorem plainKeyword_error {key : Str} {value : Json} {error : PyError}
    (h : plainKeyword key value = .error error) : key = "required" := by
  cases value with
  | arr items =>
      by_contra hkey
      simp only [plainKeyword, hkey, if_false] at h
      cases h
  | obj fields => cases h
  | null | bool _ | int _ | float _ | str _ => cases h

theorem plain_readPlain {key : Str} {value : Json} {member : Str × Shape} (h : member ∈ readPlain key value) :
    Plain member := by
  unfold readPlain at h
  cases hk : plainKeyword key value with
  | error error =>
      rw [hk, List.mem_singleton] at h
      subst h
      exact .inr ⟨plainKeyword_error hk, error, rfl⟩
  | ok kept =>
      rw [hk] at h
      obtain ⟨value', -, rfl⟩ := List.mem_map.mp h
      exact .inl ⟨value', rfl⟩

theorem keys_readPlain (key : Str) (value : Json) :
    Entries.keys (readPlain key value) = [] ∨ Entries.keys (readPlain key value) = [key] := by
  unfold readPlain
  cases plainKeyword key value with
  | error error => exact .inr rfl
  | ok kept =>
      cases kept with
      | none => exact .inl rfl
      | some value => exact .inr rfl

-- A keyword that stays comes from the schema, at the position of its key.
theorem mem_readKeywords {schema : Fields} {member : Str × Shape} (h : member ∈ readKeywords schema) :
    (position member.1 ≠ .plain ∧
      ∃ value, (member.1, value) ∈ schema ∧ member.2 = read (position member.1) value) ∨
    (position member.1 = .plain ∧ Plain member) := by
  induction schema with
  | nil => cases h
  | cons keyword rest ih =>
      obtain ⟨key, value⟩ := keyword
      have htail (hm : member ∈ readKeywords rest) : (position member.1 ≠ .plain ∧
          ∃ other, (member.1, other) ∈ (key, value) :: rest ∧ member.2 = read (position member.1) other) ∨
          (position member.1 = .plain ∧ Plain member) := by
        rcases ih hm with ⟨hp, other, ho, hshape⟩ | hplain
        · exact .inl ⟨hp, other, List.mem_cons_of_mem _ ho, hshape⟩
        · exact .inr hplain
      by_cases hskip : annotates key = true ∨ (key, value) = emptyProperties
      · rw [readKeywords_skip hskip] at h
        exact htail h
      · rw [not_or, Bool.not_eq_true] at hskip
        by_cases hp : position key = .plain
        · rw [readKeywords_plain hskip.1 hp, List.mem_append] at h
          rcases h with h | h
          · have hkey : member.1 ∈ Entries.keys (readPlain key value) := List.mem_map_of_mem h
            rcases keys_readPlain key value with hk | hk
            · rw [hk] at hkey
              cases hkey
            · rw [hk, List.mem_singleton] at hkey
              rw [hkey]
              exact .inr ⟨hp, plain_readPlain h⟩
          · exact htail h
        · rw [readKeywords_schema hskip.1 hskip.2 hp] at h
          rcases List.mem_cons.mp h with rfl | h
          · exact .inl ⟨hp, value, List.mem_cons_self, rfl⟩
          · exact htail h

theorem keys_readKeywords (schema : Fields) :
    (Entries.keys (readKeywords schema)).Sublist (Entries.keys schema) := by
  induction schema with
  | nil => exact List.Sublist.refl _
  | cons keyword rest ih =>
      obtain ⟨key, value⟩ := keyword
      rw [Entries.keys_cons]
      by_cases hskip : annotates key = true ∨ (key, value) = emptyProperties
      · rw [readKeywords_skip hskip]
        exact ih.cons key
      · rw [not_or, Bool.not_eq_true] at hskip
        by_cases hp : position key = .plain
        · rw [readKeywords_plain hskip.1 hp, Entries.keys, List.map_append]
          rcases keys_readPlain key value with hk | hk
          · rw [← Entries.keys, ← Entries.keys, hk]
            exact ih.cons key
          · rw [← Entries.keys, ← Entries.keys, hk]
            exact ih.cons_cons key
        · rw [readKeywords_schema hskip.1 hskip.2 hp]
          exact ih.cons_cons key

theorem readMembers_eq (members : Fields) : readMembers members = Entries.mapValues (read .schema) members := by
  induction members with
  | nil => rfl
  | cons member rest ih =>
      obtain ⟨key, value⟩ := member
      simp [readMembers, ih, Entries.mapValues]

theorem readBranches_eq (branches : List Json) : readBranches branches = branches.map (read .schema) := by
  induction branches with
  | nil => rfl
  | cons branch rest ih => simp [readBranches, ih]

-- A nullable wrapper's keywords are its `allOf` and values.
theorem mem_wrapper {schema : Fields} (hnodup : (Entries.keys schema).Nodup) {wrapped : Str}
    (h : wraps schema (readKeywords schema) = some wrapped) :
    ∀ member ∈ readKeywords schema, (∃ json, member.2 = .value json) ∨ member.2 = .branches [.ref wrapped] := by
  obtain ⟨hname, hcond⟩ := Option.filter_eq_some_iff.mp h
  rw [Bool.and_eq_true, List.all_eq_true] at hcond
  intro member hm
  have hkey : member.1 ∈ nullableKeywords := by
    simpa using hcond.2 member.1 (List.mem_map_of_mem hm)
  simp only [nullableKeywords, List.mem_cons, List.not_mem_nil, or_false] at hkey
  rcases mem_readKeywords hm with ⟨hp, value, hvalue, hshape⟩ | ⟨-, hplain⟩
  · have hallOf : member.1 = "allOf" := by
      rcases hkey with hk | hk | hk
      · rw [hk] at hp
        exact absurd (by decide) hp
      · rw [hk] at hp
        exact absurd (by decide) hp
      · exact hk
    rw [hallOf] at hvalue hshape
    unfold wrappedName Json.getField at hname
    rw [Entries.get?_of_mem hnodup hvalue] at hname
    match value, hname with
    | .arr [.obj member'], hname =>
        have hpos : position "allOf" = .branches := by decide
        rw [hshape, hpos]
        simp only [read, readBranches, Option.getD_some] at hname ⊢
        rw [hname]
        exact .inr rfl
  · rcases hplain with hvalue | ⟨hrequired, -⟩
    · exact .inl hvalue
    · rw [hrequired] at hkey
      exact absurd hkey (by decide)

-- They refer to the one name that it wraps.
theorem refs_wrapper {schema : Fields} (hnodup : (Entries.keys schema).Nodup) {wrapped : Str}
    (h : wraps schema (readKeywords schema) = some wrapped) :
    ∀ name ∈ Shape.refsMembers (readKeywords schema), name = wrapped := by
  intro name hrefs
  obtain ⟨member, hm, hrefs⟩ := Shape.mem_refsMembers.mp hrefs
  rcases mem_wrapper hnodup h member hm with ⟨json, hvalue⟩ | hbranches
  · rw [hvalue] at hrefs
    cases hrefs
  · rw [hbranches] at hrefs
    simpa [Shape.refs, Shape.refsItems] using hrefs

theorem read_sound {schema : Json} (h : schema.Distinct) (pos : Position) : (read pos schema).Sound := by
  induction schema using Json.induct generalizing pos with
  | null => cases pos <;> trivial
  | bool b => cases pos <;> trivial
  | int n => cases pos <;> trivial
  | float x => cases pos <;> trivial
  | str text => cases pos <;> trivial
  | arr items ih =>
      cases pos with
      | branches =>
          show Shape.SoundItems _
          rw [readBranches_eq, Shape.soundItems_iff]
          intro shape hshape
          obtain ⟨item, hm, rfl⟩ := List.mem_map.mp hshape
          exact ih item hm (Json.distinct_arr.mp h item hm) .schema
      | schema | properties | plain => trivial
  | obj fields ih =>
      obtain ⟨hnodup, hfields⟩ := Json.distinct_obj.mp h
      cases pos with
      | plain => trivial
      | branches => trivial
      | properties =>
          show (Entries.keys _).Nodup ∧ Shape.SoundMembers _
          rw [readMembers_eq, Entries.keys_mapValues, Shape.soundMembers_iff]
          refine ⟨hnodup, ?_⟩
          intro member hmember
          obtain ⟨field, hm, rfl⟩ := List.mem_map.mp hmember
          exact ih field hm (hfields field hm) .schema
      | schema =>
          rw [read]
          cases hr : refName fields with
          | some name => trivial
          | none =>
              refine ⟨(keys_readKeywords fields).nodup hnodup, ?_, fun wrapped hw => refs_wrapper hnodup hw⟩
              rw [Shape.soundMembers_iff]
              intro member hmember
              rcases mem_readKeywords hmember with ⟨-, value, hvalue, hshape⟩ | ⟨-, hplain⟩
              · rw [hshape]
                exact ih _ hvalue (hfields _ hvalue) _
              · exact hplain.sound

end Injectivity

section Expansion

-- How many components a path has not expanded yet.
def remaining (catalogue : Fields) (expanding : List Str) : Nat :=
  ((Entries.keys catalogue).filter fun name => name ∉ expanding).length

theorem remaining_le (catalogue : Fields) (expanding : List Str) :
    remaining catalogue expanding ≤ catalogue.length := by
  have h := List.length_filter_le (fun name => decide (name ∉ expanding)) (Entries.keys catalogue)
  simpa [remaining, Entries.keys] using h

theorem remaining_cons_lt {catalogue : Fields} {expanding : List Str} {name : Str}
    (hname : name ∈ Entries.keys catalogue) (hfresh : name ∉ expanding) :
    remaining catalogue (name :: expanding) < remaining catalogue expanding := by
  have hsplit : (Entries.keys catalogue).filter (fun other => other ∉ name :: expanding) =
      ((Entries.keys catalogue).filter fun other => other ∉ expanding).filter fun other => other ≠ name := by
    rw [List.filter_filter]
    apply List.filter_congr
    intro other _
    simp [not_or]
  unfold remaining
  rw [hsplit]
  apply List.length_filter_lt_length_iff_exists.mpr
  exact ⟨name, by simp [hname, hfresh], by simp⟩

theorem component_dangling {catalogue : Fields} {name : Str} (h : name ∉ Entries.keys catalogue) :
    component catalogue name = .obj [] := by
  unfold component
  rw [(Entries.get?_eq_none_iff name catalogue).mpr h]
  rfl

-- Induction along the expansions of a path.
theorem expansion_induct (catalogue : Fields) {motive : List Str → Prop} (step : ∀ expanding,
    (∀ name ∈ Entries.keys catalogue, name ∉ expanding → motive (name :: expanding)) → motive expanding)
    (expanding : List Str) : motive expanding := by
  generalize hn : remaining catalogue expanding = n
  induction n using Nat.strongRecOn generalizing expanding with
  | _ n ih =>
      apply step
      intro name hmem hname
      have hlt := remaining_cons_lt hmem hname
      exact ih (remaining catalogue (name :: expanding)) (by omega) _ rfl

variable [UnicodeData] {catalogue : Fields}

theorem normalizeWithin_open (fuel : Nat) (expanding : List Str) :
    normalizeWithin catalogue fuel expanding (.obj []) = .ok (.obj []) := by
  cases fuel <;> rfl

theorem normalizeAt_congr {expand expand' : Str → Except PyError Json} {expanding : List Str}
    (schema : Json) (h : ∀ name, name ∉ expanding → expand name = expand' name) :
    normalizeAt expand expanding .schema schema = normalizeAt expand' expanding .schema schema := by
  rw [normalizeAt_eq, normalizeAt_eq]
  exact Shape.unfold_congr _ fun name _ hname => h name hname

-- Fuel above the number of components left changes nothing.
theorem normalizeWithin_stable {fuel fuel' : Nat} {expanding : List Str}
    (hfuel : remaining catalogue expanding < fuel) (hfuel' : remaining catalogue expanding < fuel')
    (schema : Json) :
    normalizeWithin catalogue fuel expanding schema = normalizeWithin catalogue fuel' expanding schema := by
  induction fuel generalizing fuel' expanding schema with
  | zero => omega
  | succ n ih =>
      cases fuel' with
      | zero => omega
      | succ m =>
          apply normalizeAt_congr
          intro name hname
          by_cases hmem : name ∈ Entries.keys catalogue
          · have hlt := remaining_cons_lt hmem hname
            apply ih
            · omega
            · omega
          · rw [component_dangling hmem, normalizeWithin_open, normalizeWithin_open]

-- The recursion of the code.
theorem normalize_eq (expanding : List Str) (schema : Json) :
    normalize catalogue expanding schema =
      normalizeAt (fun name => normalize catalogue (name :: expanding) (component catalogue name))
        expanding .schema schema := by
  show normalizeAt _ expanding .schema schema = _
  apply normalizeAt_congr
  intro name hname
  by_cases hmem : name ∈ Entries.keys catalogue
  · have hlt := remaining_cons_lt hmem hname
    have hle := remaining_le catalogue expanding
    apply normalizeWithin_stable
    · omega
    · omega
  · show _ = normalize catalogue (name :: expanding) (component catalogue name)
    unfold normalize
    rw [component_dangling hmem, normalizeWithin_open, normalizeWithin_open]

theorem normalize_eq_unfold (expanding : List Str) (schema : Json) :
    normalize catalogue expanding schema = (read .schema schema).unfold
      (fun name => normalize catalogue (name :: expanding) (component catalogue name)) expanding := by
  rw [normalize_eq, normalizeAt_eq]

end Expansion

end Benzene.Contract
