import Benzene.Contract.Document
import Benzene.Contract.Sorting

namespace Benzene.Contract

open Benzene.Data
open Benzene.Mesh (Member isReservedTopic reservedTopicPrefix)

section Entries

variable [UnicodeData] {catalogue catalogue' : Fields} {entry entry' : Fields}

-- What an entry's field is projected to, if the entry has it.
def fieldOf (catalogue entry : Fields) (name : Str) : Option (Except PyError Json) :=
  (Entries.get? name entry).map (projectField catalogue name)

theorem projectEntry_congr {names : List Str}
    (h : ∀ name ∈ names, fieldOf catalogue entry name = fieldOf catalogue' entry' name) :
    projectEntry catalogue entry names = projectEntry catalogue' entry' names := by
  induction names with
  | nil => rfl
  | cons name rest ih =>
      have hrest := ih fun other hm => h other (List.mem_cons_of_mem _ hm)
      have hname := h name List.mem_cons_self
      unfold fieldOf at hname
      unfold projectEntry
      cases hget : Entries.get? name entry with
      | none =>
          rw [hget, Option.map_none] at hname
          rw [Option.map_eq_none_iff.mp hname.symm]
          exact hrest
      | some value =>
          rw [hget, Option.map_some] at hname
          obtain ⟨value', hget', hvalue⟩ := Option.map_eq_some_iff.mp hname.symm
          rw [hget']
          simp only [hvalue, hrest]

theorem keys_projectEntry {names : List Str} {out : Fields}
    (h : projectEntry catalogue entry names = .ok out) : (Entries.keys out).Sublist names := by
  induction names generalizing out with
  | nil =>
      cases h
      exact .slnil
  | cons name rest ih =>
      unfold projectEntry at h
      cases hget : Entries.get? name entry with
      | none =>
          rw [hget] at h
          exact (ih h).cons name
      | some value =>
          rw [hget] at h
          obtain ⟨projected, -, h⟩ := Except.bind_eq_ok.mp h
          obtain ⟨more, hmore, h⟩ := Except.bind_eq_ok.mp h
          cases h
          exact (ih hmore).cons_cons name

theorem get?_projectEntry {names : List Str} (hnames : names.Nodup) {out : Fields}
    (h : projectEntry catalogue entry names = .ok out) {name : Str} (hname : name ∈ names) :
    (Entries.get? name out).map .ok = fieldOf catalogue entry name := by
  induction names generalizing out with
  | nil => cases hname
  | cons other rest ih =>
      obtain ⟨hother, hrest⟩ := List.nodup_cons.mp hnames
      unfold projectEntry at h
      cases hget : Entries.get? other entry with
      | none =>
          rw [hget] at h
          rcases List.mem_cons.mp hname with rfl | hm
          · have hnone : Entries.get? name out = none := by
              rw [Entries.get?_eq_none_iff]
              exact fun hkey => hother ((keys_projectEntry h).subset hkey)
            rw [hnone, fieldOf, hget]
            rfl
          · exact ih hrest h hm
      | some value =>
          rw [hget] at h
          obtain ⟨projected, hprojected, h⟩ := Except.bind_eq_ok.mp h
          obtain ⟨more, hmore, h⟩ := Except.bind_eq_ok.mp h
          cases h
          rw [Entries.get?_cons]
          rcases List.mem_cons.mp hname with rfl | hm
          · rw [if_pos rfl, fieldOf, hget, Option.map_some, Option.map_some, hprojected]
          · have hne : other ≠ name := fun he => hother (he ▸ hm)
            rw [if_neg hne]
            exact ih hrest hmore hm

-- Entries are projected to one canonical form only if each of their fields is.
theorem projectEntry_agree {names : List Str} (hnames : names.Nodup) {p q : Fields}
    (hp : projectEntry catalogue entry names = .ok p) (hq : projectEntry catalogue' entry' names = .ok q)
    (hsame : (Json.obj p).canonical = (Json.obj q).canonical) :
    ∀ name ∈ names, Option.Rel Agree (fieldOf catalogue entry name) (fieldOf catalogue' entry' name) := by
  intro name hname
  have hget := Json.get?_of_canonical hsame name
  rw [← get?_projectEntry hnames hp hname, ← get?_projectEntry hnames hq hname]
  cases hgp : Entries.get? name p with
  | none =>
      rw [hgp] at hget
      rw [Option.map_eq_none_iff.mp hget.symm]
      exact .none
  | some v =>
      rw [hgp] at hget
      obtain ⟨w, hgq, hvw⟩ := Option.map_eq_some_iff.mp hget.symm
      rw [hgq]
      exact .some ⟨v, w, rfl, rfl, hvw.symm⟩

theorem projectEntry_ok {names : List Str}
    (h : ∀ name ∈ names, ∀ result, fieldOf catalogue entry name = some result → ∃ value, result = .ok value) :
    ∃ out, projectEntry catalogue entry names = .ok out := by
  induction names with
  | nil => exact ⟨[], rfl⟩
  | cons name rest ih =>
      obtain ⟨out, hout⟩ := ih fun other hm => h other (List.mem_cons_of_mem _ hm)
      have hname := h name List.mem_cons_self
      unfold fieldOf at hname
      unfold projectEntry
      cases hget : Entries.get? name entry with
      | none => exact ⟨out, hout⟩
      | some value =>
          rw [hget] at hname
          obtain ⟨projected, hprojected⟩ := hname _ rfl
          refine ⟨(name, projected) :: out, ?_⟩
          simp only [hprojected, hout]
          rfl

-- Entries are projected to one canonical form where each of their fields is.
theorem projectEntry_alike {names : List Str} (hnames : names.Nodup)
    (h : ∀ name ∈ names, Option.Rel Agree (fieldOf catalogue entry name) (fieldOf catalogue' entry' name)) :
    ∃ p q, projectEntry catalogue entry names = .ok p ∧ projectEntry catalogue' entry' names = .ok q ∧
      (Json.obj p).canonical = (Json.obj q).canonical := by
  obtain ⟨p, hp⟩ : ∃ p, projectEntry catalogue entry names = .ok p := by
    apply projectEntry_ok
    intro name hname result hresult
    have hrel := h name hname
    rw [hresult] at hrel
    generalize fieldOf catalogue' entry' name = other at hrel
    cases hrel with
    | some hagree =>
        obtain ⟨v, -, hv, -⟩ := hagree
        exact ⟨v, hv⟩
  obtain ⟨q, hq⟩ : ∃ q, projectEntry catalogue' entry' names = .ok q := by
    apply projectEntry_ok
    intro name hname result hresult
    have hrel := h name hname
    rw [hresult] at hrel
    generalize fieldOf catalogue entry name = other at hrel
    cases hrel with
    | some hagree =>
        obtain ⟨-, w, -, hw, -⟩ := hagree
        exact ⟨w, hw⟩
  refine ⟨p, q, hp, hq, ?_⟩
  have hkeys := keys_projectEntry hp
  have hkeys' := keys_projectEntry hq
  apply Json.canonical_of_get? (hkeys.nodup hnames) (hkeys'.nodup hnames)
  intro name
  by_cases hname : name ∈ names
  · have hget := get?_projectEntry hnames hp hname
    have hget' := get?_projectEntry hnames hq hname
    have hrel := h name hname
    rw [← hget, ← hget'] at hrel
    cases hgp : Entries.get? name p with
    | none =>
        rw [hgp] at hrel
        cases hgq : Entries.get? name q with
        | none => rfl
        | some w =>
            rw [hgq] at hrel
            cases hrel
    | some v =>
        rw [hgp] at hrel
        cases hgq : Entries.get? name q with
        | none =>
            rw [hgq] at hrel
            cases hrel
        | some w =>
            rw [hgq] at hrel
            cases hrel with
            | some hagree =>
                obtain ⟨v', w', hv, hw, hsame⟩ := hagree
                cases hv
                cases hw
                rw [Option.map_some, Option.map_some, hsame]
  · have habsent {out : Fields} (hsub : (Entries.keys out).Sublist names) : Entries.get? name out = none := by
      rw [Entries.get?_eq_none_iff]
      exact fun hkey => hname (hsub.subset hkey)
    rw [habsent hkeys, habsent hkeys']

theorem projectField_plain {name : Str} (hschema : name ∉ schemaFields) (hmappings : name ≠ "httpMappings")
    (value : Json) : projectField catalogue name value = .ok value := by
  unfold projectField
  rw [if_neg hschema, if_neg hmappings]

-- A field that is no schema and no list of mappings is kept as it is.
theorem get?_projectEntry_plain {names : List Str} (hnames : names.Nodup) {out : Fields}
    (h : projectEntry catalogue entry names = .ok out) {name : Str} (hname : name ∈ names)
    (hschema : name ∉ schemaFields) (hmappings : name ≠ "httpMappings") :
    Entries.get? name out = Entries.get? name entry := by
  have hget := get?_projectEntry hnames h hname
  unfold fieldOf at hget
  cases hvalue : Entries.get? name entry with
  | none =>
      rw [hvalue, Option.map_none] at hget
      exact Option.map_eq_none_iff.mp hget
  | some value =>
      rw [hvalue, Option.map_some, projectField_plain hschema hmappings] at hget
      obtain ⟨projected, hprojected, hok⟩ := Option.map_eq_some_iff.mp hget
      cases hok
      exact hprojected

theorem fieldOf_plain {catalogue : Fields} {name : Str} (hschema : name ∉ schemaFields)
    (hmappings : name ≠ "httpMappings") : fieldOf catalogue entry name = (Entries.get? name entry).map .ok := by
  unfold fieldOf
  congr 1
  funext value
  exact projectField_plain hschema hmappings value

theorem fieldOf_schema {catalogue : Fields} {name : Str} (hschema : name ∈ schemaFields) :
    fieldOf catalogue entry name = (Entries.get? name entry).map (normalizeSchema catalogue) := by
  unfold fieldOf projectField
  simp only [hschema, if_true]

theorem fieldOf_mappings {catalogue : Fields} : fieldOf catalogue entry "httpMappings" =
    (Entries.get? ("httpMappings" : Str) entry).map projectHttpMappings := by
  unfold fieldOf
  congr 1

end Entries

section Members

theorem mem_iter_obj {value : Json} {items : List Json} (h : (Json.orElse value (.arr [])).iter = .ok items)
    {entry : Fields} : .obj entry ∈ items ↔ ∃ values, value = .arr values ∧ .obj entry ∈ values := by
  unfold Json.orElse at h
  cases value with
  | arr values =>
      have hitems : items = values := by
        cases values with
        | nil => exact (Except.ok.inj h).symm
        | cons _ _ => exact (Except.ok.inj h).symm
      simp [hitems]
  | obj fields =>
      split at h
      · cases h
        simp
      · cases h
        simp
  | str text =>
      split at h
      · cases h
        simp
      · cases h
        simp
  | null | bool _ | int _ | float _ =>
      split at h
      · cases h
      · cases h
        simp

def payloadField : Member → Str
  | .events => "message"
  | _ => "request"

theorem field_cases {member : Member} {name : Str} (h : name ∈ entryFields member) :
    name = "topic" ∨ name = "version" ∨ (name = "httpMappings" ∧ member = .requests) ∨
      name = payloadField member ∨ name = "response" ∧ member ≠ .events := by
  cases member <;> simpa [entryFields, payloadField] using h

theorem nodup_entryFields (member : Member) : (entryFields member).Nodup := by
  cases member <;> decide

theorem topic_mem_entryFields (member : Member) : ("topic" : Str) ∈ entryFields member := by
  cases member <;> decide

theorem version_mem_entryFields (member : Member) : ("version" : Str) ∈ entryFields member := by
  cases member <;> decide

theorem forall₂_through {α β γ δ : Type} {R : α → β → Prop} {S : β → δ → Prop} {T : γ → δ → Prop}
    {as : List α} {bs : List β} {cs : List γ} {ds : List δ} (hab : List.Forall₂ R as bs)
    (hbd : List.Forall₂ S bs ds) (hcd : List.Forall₂ T cs ds) :
    List.Forall₂ (fun a c => ∃ b d, R a b ∧ T c d ∧ S b d) as cs := by
  induction hab generalizing cs ds with
  | nil =>
      cases hbd
      cases hcd
      exact .nil
  | cons hr _ ih =>
      cases hbd with
      | cons hs hbd =>
          cases hcd with
          | cons ht hcd => exact .cons ⟨_, _, hr, ht, hs⟩ (ih hbd hcd)

theorem forall₂_filter {α : Type} {R : α → α → Prop} {p : α → Bool} (hp : ∀ a b, R a b → p a = p b)
    {as bs : List α} (h : List.Forall₂ R as bs) : List.Forall₂ R (as.filter p) (bs.filter p) := by
  induction h with
  | nil => exact .nil
  | @cons a b _ _ hhead _ ih =>
      have hsame := hp a b hhead
      cases ha : p a with
      | true =>
          rw [List.filter_cons_of_pos ha, List.filter_cons_of_pos (hsame ▸ ha)]
          exact .cons hhead ih
      | false =>
          rw [List.filter_cons_of_neg (by simp [ha]), List.filter_cons_of_neg (by simp [← hsame, ha])]
          exact ih

theorem mappings_of_arr (values : List Json) : mappings (.arr values) = .ok (values.filterMap mapping?) := by
  cases values <;> rfl

theorem mappings_arr (entries : List Fields) : mappings (.arr (entries.map .obj)) = .ok entries := by
  have hiter : (Json.orElse (.arr (entries.map .obj)) (.arr [])).iter = .ok (entries.map .obj) := by
    cases entries <;> rfl
  unfold mappings
  rw [hiter]
  show Except.ok ((entries.map Json.obj).filterMap mapping?) = _
  rw [List.filterMap_map]
  exact congrArg _ (List.filterMap_some)

variable [UnicodeData] {catalogue catalogue' : Fields} {member : Member}

-- Entries that are sorted to the same place.
structure SamePlace (a b : Fields) : Prop where
  topic : Entries.get? ("topic" : Str) a = Entries.get? ("topic" : Str) b
  version : Entries.get? ("version" : Str) a = Entries.get? ("version" : Str) b

theorem SamePlace.entryKey_eq {a b : Fields} (h : SamePlace a b) : entryKey a = entryKey b := by
  unfold entryKey getText
  rw [h.topic, h.version]

theorem samePlace_projectEntry {entry out : Fields}
    (h : projectEntry catalogue entry (entryFields member) = .ok out) : SamePlace out entry where
  topic := get?_projectEntry_plain (nodup_entryFields member) h (topic_mem_entryFields member)
    (by decide) (by decide)
  version := get?_projectEntry_plain (nodup_entryFields member) h (version_mem_entryFields member)
    (by decide) (by decide)

-- Projections of two entries, of one canonical form.
def EntryAgrees (catalogue catalogue' : Fields) (member : Member) (a b : Fields) : Prop :=
  ∃ p q, projectEntry catalogue a (entryFields member) = .ok p ∧
    projectEntry catalogue' b (entryFields member) = .ok q ∧ (Json.obj p).canonical = (Json.obj q).canonical

theorem SamePlace.trans_eq {a b p q : Fields} (h : SamePlace a b)
    (hp : projectEntry catalogue a (entryFields member) = .ok p)
    (hq : projectEntry catalogue' b (entryFields member) = .ok q) : entryKey p = entryKey q := by
  rw [(samePlace_projectEntry hp).entryKey_eq, h.entryKey_eq, (samePlace_projectEntry hq).entryKey_eq]

-- Two lists of entries, sorted to the same places, agree entry by entry.
theorem projectEntries_agree {listed listed' : List Fields} (hplaces : List.Forall₂ SamePlace listed listed')
    (h : Agree (projectEntries catalogue member listed) (projectEntries catalogue' member listed')) :
    List.Forall₂ (EntryAgrees catalogue catalogue' member) listed listed' := by
  obtain ⟨v, w, hv, hw, hsame⟩ := h
  obtain ⟨ps, hps, hv⟩ := Except.bind_eq_ok.mp hv
  obtain ⟨sp, hsp, hv⟩ := Except.bind_eq_ok.mp hv
  obtain ⟨qs, hqs, hw⟩ := Except.bind_eq_ok.mp hw
  obtain ⟨sq, hsq, hw⟩ := Except.bind_eq_ok.mp hw
  cases hv
  cases hw
  rw [Except.mapM_eq_ok] at hps hqs
  have hkeys : List.Forall₂ (fun p q => entryKey p = entryKey q) ps qs := by
    have hboth := forall₂_through (List.Forall₂.flip hps) hplaces (List.Forall₂.flip hqs)
    apply hboth.imp
    rintro p q ⟨a, b, hp, hq, hab⟩
    exact hab.trans_eq hp hq
  obtain ⟨pairs, sorted, hperm, rfl, rfl, rfl, rfl⟩ := sortedBy_pairs hkeys hsp hsq
  rw [Json.canonical_arr, Json.canonical_arr] at hsame
  simp only [List.map_map] at hsame
  have hcanonical := List.map_inj_left.mp (Json.arr.inj hsame)
  have hsame : List.Forall₂ (fun p q => (Json.obj p).canonical = (Json.obj q).canonical)
      (pairs.map Prod.fst) (pairs.map Prod.snd) := by
    rw [List.forall₂_map_left_iff, List.forall₂_map_right_iff, List.forall₂_same]
    intro pair hpair
    exact hcanonical pair (hperm.mem_iff.mpr hpair)
  exact forall₂_through hps hsame hqs

theorem projectEntries_congr {listed listed' : List Fields} (h : List.Forall₂ (fun a b =>
    projectEntry catalogue a (entryFields member) = projectEntry catalogue' b (entryFields member)) listed listed') :
    projectEntries catalogue member listed = projectEntries catalogue' member listed' := by
  have hmap : (listed.mapM fun entry => projectEntry catalogue entry (entryFields member)) =
      listed'.mapM fun entry => projectEntry catalogue' entry (entryFields member) := by
    induction h with
    | nil => rfl
    | cons hhead _ ih => rw [List.mapM_cons, List.mapM_cons, hhead, ih]
  unfold projectEntries
  rw [hmap]

theorem projectMember_toRawDocument (document : ContractDocument) (member : Member) :
    projectMember (toRawDocument document) member =
      projectEntries document.schemas member ((document.rawEntries member).filter fun e => !isReserved e) := by
  unfold projectMember listedEntries
  rw [getField_toRawDocument_member, mappings_arr, schemasOf_toRawDocument]
  rfl

end Members

end Benzene.Contract
