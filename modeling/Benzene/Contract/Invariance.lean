import Benzene.Contract.Alike
import Benzene.Contract.Closure
import Benzene.Contract.Entries

namespace Benzene.Contract

open Benzene.Data
open Benzene.Mesh (Member)

section Mappings

-- A mapping's method and path.
def methodAndPath (mapping : Fields) : Option Json × Option Json :=
  (Entries.get? ("method" : Str) mapping, Entries.get? ("path" : Str) mapping)

structure TextMapping (mapping : Fields) : Prop where
  method : ∃ method : Str, Entries.get? ("method" : Str) mapping = some (.str method) ∧ method.Encodable
  path : ∃ path : Str, Entries.get? ("path" : Str) mapping = some (.str path) ∧ path.Encodable

-- Lists of mappings in any order, with other fields or without.
def MappingsAlike (v w : Json) : Prop :=
  ∃ mappings mappings' : List Fields, v = .arr (mappings.map .obj) ∧ w = .arr (mappings'.map .obj) ∧
    (∀ mapping ∈ mappings, TextMapping mapping) ∧
    (mappings.map methodAndPath).Perm (mappings'.map methodAndPath)

variable [UnicodeData]

-- Upper case keeps well-formed text well-formed.
def UpperEncodes : Prop := ∀ text : Str, text.Encodable → (Str.upper text).Encodable

theorem mappingKey_text {method path : Str} (hmethod : method.Encodable) (hpath : path.Encodable) :
    mappingKey (method, .str path) = .ok [method.utf16, path.utf16] := by
  have hm : utf16Key (.str method) = .ok method.utf16 := if_pos hmethod
  have hp : utf16Key (.str path) = .ok path.utf16 := if_pos hpath
  unfold mappingKey
  rw [hm, hp]
  rfl

def projectedPair (pair : Option Json × Option Json) : Str × Json :=
  (Str.upper (pair.1.getD (.str [])).text, pair.2.getD (.str []))

theorem projectedPair_text (hupper : UpperEncodes) {mapping : Fields} (h : TextMapping mapping) :
    ∃ method path : Str, projectedPair (methodAndPath mapping) = (method, .str path) ∧
      method.Encodable ∧ path.Encodable := by
  obtain ⟨method, hmethod, hencodes⟩ := h.method
  obtain ⟨path, hpath, hencodes'⟩ := h.path
  refine ⟨Str.upper method, path, ?_, hupper method hencodes, hencodes'⟩
  unfold projectedPair methodAndPath
  rw [hmethod, hpath]
  rfl

theorem projectHttpMappings_arr (mappings : List Fields) : projectHttpMappings (.arr (mappings.map .obj)) =
    (sortedBy mappingKey ((mappings.map methodAndPath).map projectedPair)).map fun sorted =>
      .arr (sorted.map fun mapping => .obj [Json.field "method" (.str mapping.1), Json.field "path" mapping.2]) := by
  have hpairs : (mappings.map fun mapping =>
      (Str.upper (getText mapping "method").text, getText mapping "path")) =
      (mappings.map methodAndPath).map projectedPair := by
    rw [List.map_map]
    rfl
  unfold projectHttpMappings
  rw [mappings_arr]
  show (sortedBy mappingKey _ >>= _ : Except PyError Json) = _
  rw [hpairs]
  cases sortedBy mappingKey ((mappings.map methodAndPath).map projectedPair) <;> rfl

theorem projectHttpMappings_alike (hupper : UpperEncodes) {v w : Json} (h : MappingsAlike v w) :
    ∃ out, projectHttpMappings v = .ok out ∧ projectHttpMappings w = .ok out := by
  obtain ⟨mappings, mappings', rfl, rfl, htexts, hperm⟩ := h
  have htext : ∀ pair ∈ (mappings.map methodAndPath).map projectedPair,
      ∃ method path : Str, pair = (method, .str path) ∧ method.Encodable ∧ path.Encodable := by
    intro pair hpair
    rw [List.map_map] at hpair
    obtain ⟨mapping, hmapping, rfl⟩ := List.mem_map.mp hpair
    exact projectedPair_text hupper (htexts mapping hmapping)
  have hkeys : ∀ pair ∈ (mappings.map methodAndPath).map projectedPair, ∃ key, mappingKey pair = .ok key := by
    intro pair hpair
    obtain ⟨method, path, rfl, hmethod, hpath⟩ := htext pair hpair
    exact ⟨_, mappingKey_text hmethod hpath⟩
  have hsame := sortedBy_eq_of_perm (hperm.map projectedPair) hkeys (by
    intro x hx y hy hxy
    obtain ⟨method, path, rfl, hmethod, hpath⟩ := htext x hx
    obtain ⟨method', path', rfl, hmethod', hpath'⟩ := htext y hy
    rw [mappingKey_text hmethod hpath, mappingKey_text hmethod' hpath'] at hxy
    simp only [Except.ok.injEq, List.cons.injEq, and_true] at hxy
    rw [Str.utf16_inj hmethod hmethod' hxy.1, Str.utf16_inj hpath hpath' hxy.2])
  obtain ⟨sorted, hsorted⟩ := sortedBy_ok hkeys
  rw [projectHttpMappings_arr, projectHttpMappings_arr, ← hsame, hsorted]
  exact ⟨_, rfl, rfl⟩

end Mappings

section Entries

variable {rename : Str → Str} {member : Member}

-- An entry's topic and version.
def place (entry : Fields) : Option Json × Option Json :=
  (Entries.get? ("topic" : Str) entry, Entries.get? ("version" : Str) entry)

structure TextPlace (entry : Fields) : Prop where
  topic : ∃ topic : Str, Entries.get? ("topic" : Str) entry = some (.str topic) ∧ topic.Encodable
  version : ∀ value, Entries.get? ("version" : Str) entry = some value →
    ∃ version : Str, value = .str version ∧ version.Encodable

-- Entries that differ in the fields no projection lists, and alike in those that one does.
structure EntryAlike (rename : Str → Str) (member : Member) (entry entry' : Fields) : Prop where
  text : TextPlace entry
  place : place entry = place entry'
  keys : ∀ name ∈ entryFields member, Entries.get? name entry = none ↔ Entries.get? name entry' = none
  mappings : ∀ v w, Entries.get? ("httpMappings" : Str) entry = some v →
    Entries.get? ("httpMappings" : Str) entry' = some w → MappingsAlike v w
  schemas : ∀ name ∈ schemaFields, ∀ v w, Entries.get? name entry = some v →
    Entries.get? name entry' = some w → Alike rename .schema v w

theorem EntryAlike.samePlace {entry entry' : Fields} (h : EntryAlike rename member entry entry') :
    SamePlace entry entry' :=
  ⟨congrArg Prod.fst h.place, congrArg Prod.snd h.place⟩

variable [UnicodeData] {catalogue catalogue' : Fields}

theorem EntryAlike.agrees (hupper : UpperEncodes) (hrename : Function.Injective rename)
    (hcatalogue : CataloguesAlike rename catalogue catalogue') {entry entry' : Fields}
    (h : EntryAlike rename member entry entry') : EntryAgrees catalogue catalogue' member entry entry' := by
  apply projectEntry_alike (nodup_entryFields member)
  intro name hname
  have hkeys := h.keys name hname
  cases hv : Entries.get? name entry with
  | none =>
      rw [fieldOf, fieldOf, hv, hkeys.mp hv]
      exact .none
  | some v =>
      obtain ⟨w, hw⟩ : ∃ w, Entries.get? name entry' = some w := by
        apply Option.ne_none_iff_exists'.mp
        intro hw
        rw [hkeys.mpr hw] at hv
        cases hv
      rw [fieldOf, fieldOf, hv, hw, Option.map_some, Option.map_some]
      apply Option.Rel.some
      unfold projectField
      by_cases hschema : name ∈ schemaFields
      · rw [if_pos hschema, if_pos hschema]
        exact normalize_alike hrename hcatalogue (h.schemas name hschema v w hv hw)
      · rw [if_neg hschema, if_neg hschema]
        by_cases hmappings : name = "httpMappings"
        · subst hmappings
          rw [if_pos rfl, if_pos rfl]
          obtain ⟨out, hout, hout'⟩ := projectHttpMappings_alike hupper (h.mappings v w hv hw)
          exact ⟨out, out, hout, hout', rfl⟩
        · rw [if_neg hmappings, if_neg hmappings]
          have hsame : v = w := by
            rcases field_cases hname with rfl | rfl | ⟨rfl, -⟩ | rfl | ⟨rfl, -⟩
            · rw [h.samePlace.topic, hw] at hv
              exact (Option.some.inj hv).symm
            · rw [h.samePlace.version, hw] at hv
              exact (Option.some.inj hv).symm
            · exact absurd rfl hmappings
            · exact absurd (by cases member <;> decide) hschema
            · exact absurd (by decide) hschema
          exact ⟨v, w, rfl, rfl, by rw [hsame]⟩

theorem entryKey_text {entry : Fields} (h : TextPlace entry) :
    ∃ topic : Str, topic.Encodable ∧ Entries.get? ("topic" : Str) entry = some (.str topic) ∧
      ((Entries.get? ("version" : Str) entry = none ∧ entryKey entry = .ok [topic.utf16, [0], []]) ∨
        ∃ version : Str, version.Encodable ∧ Entries.get? ("version" : Str) entry = some (.str version) ∧
          entryKey entry = .ok [topic.utf16, [1], version.utf16]) := by
  obtain ⟨topic, htopic, hencodes⟩ := h.topic
  have hkey : utf16Key (.str topic) = .ok topic.utf16 := if_pos hencodes
  refine ⟨topic, hencodes, htopic, ?_⟩
  cases hversion : Entries.get? ("version" : Str) entry with
  | none =>
      refine .inl ⟨rfl, ?_⟩
      unfold entryKey getText
      simp only [htopic, hversion, hkey]
      rfl
  | some value =>
      obtain ⟨version, rfl, hversionEncodes⟩ := h.version value hversion
      have hversionKey : utf16Key (.str version) = .ok version.utf16 := if_pos hversionEncodes
      refine .inr ⟨version, hversionEncodes, rfl, ?_⟩
      unfold entryKey getText
      simp only [htopic, hversion, hkey]
      show (utf16Key (.str version) >>= _ : Except PyError (List (List Nat))) = _
      rw [hversionKey]
      rfl

-- Entries are sorted by what tells them apart.
theorem entryKey_inj {a b : Fields} (ha : TextPlace a) (hb : TextPlace b) (h : entryKey a = entryKey b) :
    place a = place b := by
  obtain ⟨topic, htopic, hget, hkey⟩ := entryKey_text ha
  obtain ⟨topic', htopic', hget', hkey'⟩ := entryKey_text hb
  have hplace : topic = topic' ∧ Entries.get? ("version" : Str) a = Entries.get? ("version" : Str) b := by
    rcases hkey with ⟨hversion, hkey⟩ | ⟨version, hencodes, hversion, hkey⟩
    · rcases hkey' with ⟨hversion', hkey'⟩ | ⟨version', -, -, hkey'⟩
      · rw [hkey, hkey'] at h
        simp only [Except.ok.injEq, List.cons.injEq, and_true] at h
        exact ⟨Str.utf16_inj htopic htopic' h, by rw [hversion, hversion']⟩
      · rw [hkey, hkey'] at h
        simp at h
    · rcases hkey' with ⟨-, hkey'⟩ | ⟨version', hencodes', hversion', hkey'⟩
      · rw [hkey, hkey'] at h
        simp at h
      · rw [hkey, hkey'] at h
        simp only [Except.ok.injEq, List.cons.injEq, and_true, true_and] at h
        refine ⟨Str.utf16_inj htopic htopic' h.1, ?_⟩
        rw [hversion, hversion', Str.utf16_inj hencodes hencodes' h.2]
  unfold Contract.place
  rw [hget, hget', hplace.1, hplace.2]

end Entries

section Members

variable [UnicodeData] {rename : Str → Str} {member : Member} {catalogue catalogue' : Fields}

theorem entryKey_ok {entry : Fields} (h : TextPlace entry) : ∃ key, entryKey entry = .ok key := by
  obtain ⟨topic, -, -, ⟨-, hkey⟩ | ⟨version, -, -, hkey⟩⟩ := entryKey_text h
  · exact ⟨_, hkey⟩
  · exact ⟨_, hkey⟩

-- Entries alike one by one.
theorem projectEntries_alike {listed listed' : List Fields} (htext : ∀ entry ∈ listed, TextPlace entry)
    (h : List.Forall₂ (fun a b => EntryAgrees catalogue catalogue' member a b ∧ SamePlace a b) listed listed') :
    Agree (projectEntries catalogue member listed) (projectEntries catalogue' member listed') := by
  have hall : ∃ ps qs,
      List.Forall₂ (fun entry p => projectEntry catalogue entry (entryFields member) = .ok p) listed ps ∧
      List.Forall₂ (fun entry q => projectEntry catalogue' entry (entryFields member) = .ok q) listed' qs ∧
      List.Forall₂ (fun p q => entryKey p = entryKey q ∧ (Json.obj p).canonical = (Json.obj q).canonical) ps qs := by
    clear htext
    induction h with
    | nil => exact ⟨[], [], .nil, .nil, .nil⟩
    | cons hhead _ ih =>
        obtain ⟨ps, qs, hps, hqs, hpqs⟩ := ih
        obtain ⟨⟨p, q, hp, hq, hsame⟩, hplace⟩ := hhead
        exact ⟨p :: ps, q :: qs, .cons hp hps, .cons hq hqs, .cons ⟨hplace.trans_eq hp hq, hsame⟩ hpqs⟩
  obtain ⟨ps, qs, hps, hqs, hpqs⟩ := hall
  have hkeysP : ∀ p ∈ ps, ∃ key, entryKey p = .ok key := by
    intro p hp
    obtain ⟨entry, hentry, hok⟩ := exists_of_mem_right hps hp
    rw [(samePlace_projectEntry hok).entryKey_eq]
    exact entryKey_ok (htext entry hentry)
  have hkeysQ : ∀ q ∈ qs, ∃ key, entryKey q = .ok key := by
    intro q hq
    obtain ⟨p, hp, hsame, -⟩ := exists_of_mem_right hpqs hq
    rw [← hsame]
    exact hkeysP p hp
  obtain ⟨sp, hsp⟩ := sortedBy_ok hkeysP
  obtain ⟨sq, hsq⟩ := sortedBy_ok hkeysQ
  obtain ⟨pairs, sorted, hperm, rfl, rfl, rfl, rfl⟩ := sortedBy_pairs (hpqs.imp fun _ _ h => h.1) hsp hsq
  refine ⟨.arr ((sorted.map Prod.fst).map .obj), .arr ((sorted.map Prod.snd).map .obj), ?_, ?_, ?_⟩
  · unfold projectEntries
    rw [Except.mapM_eq_ok.mpr hps]
    show (sortedBy entryKey (pairs.map Prod.fst) >>= _ : Except PyError Json) = _
    rw [hsp]
    rfl
  · unfold projectEntries
    rw [Except.mapM_eq_ok.mpr hqs]
    show (sortedBy entryKey (pairs.map Prod.snd) >>= _ : Except PyError Json) = _
    rw [hsq]
    rfl
  · rw [List.forall₂_map_left_iff, List.forall₂_map_right_iff, List.forall₂_same] at hpqs
    rw [Json.canonical_arr, Json.canonical_arr]
    simp only [List.map_map]
    congr 1
    apply List.map_congr_left
    intro pair hpair
    exact (hpqs pair (hperm.mem_iff.mp hpair)).2

-- Entries with different topics or versions, in any order.
theorem projectEntries_perm {listed listed' : List Fields} (htext : ∀ entry ∈ listed, TextPlace entry)
    (hplaces : (listed.map place).Nodup)
    (hok : ∀ entry ∈ listed, ∃ p, projectEntry catalogue entry (entryFields member) = .ok p)
    (h : listed.Perm listed') : projectEntries catalogue member listed = projectEntries catalogue member listed' := by
  obtain ⟨ps, hps⟩ : ∃ ps, List.Forall₂
      (fun entry p => projectEntry catalogue entry (entryFields member) = .ok p) listed ps := by
    clear htext hplaces h
    induction listed with
    | nil => exact ⟨[], .nil⟩
    | cons entry rest ih =>
        obtain ⟨hentry, hrest⟩ := List.forall_mem_cons.mp hok
        obtain ⟨p, hp⟩ := hentry
        obtain ⟨ps, hps⟩ := ih hrest
        exact ⟨p :: ps, .cons hp hps⟩
  obtain ⟨qs, hqs, hperm⟩ := List.perm_comp_forall₂ h.symm hps
  have hsource : ∀ p ∈ ps, ∃ entry ∈ listed, projectEntry catalogue entry (entryFields member) = .ok p ∧
      entryKey p = entryKey entry := by
    intro p hp
    obtain ⟨entry, hentry, hproject⟩ := exists_of_mem_right hps hp
    exact ⟨entry, hentry, hproject, (samePlace_projectEntry hproject).entryKey_eq⟩
  have hsorted : sortedBy entryKey ps = sortedBy entryKey qs := by
    apply sortedBy_eq_of_perm hperm.symm
    · intro p hp
      obtain ⟨entry, hentry, -, hkey⟩ := hsource p hp
      rw [hkey]
      exact entryKey_ok (htext entry hentry)
    · intro p hp q hq hpq
      obtain ⟨entry, hentry, hproject, hkey⟩ := hsource p hp
      obtain ⟨other, hother, hproject', hkey'⟩ := hsource q hq
      rw [hkey, hkey'] at hpq
      have hsame := entryKey_inj (htext entry hentry) (htext other hother) hpq
      have heq := List.inj_on_of_nodup_map hplaces hentry hother hsame
      rw [heq, hproject'] at hproject
      exact (Except.ok.inj hproject).symm
  unfold projectEntries
  rw [Except.mapM_eq_ok.mpr hps, Except.mapM_eq_ok.mpr hqs]
  show (sortedBy entryKey ps >>= _ : Except PyError Json) = (sortedBy entryKey qs >>= _ : Except PyError Json)
  rw [hsorted]

-- The entries that a member lists, in any order, each topic and version once. Reserved
-- entries are not among them.
def MemberAlike (rename : Str → Str) (member : Member) (document document' : Fields) : Prop :=
  ∃ listed middle listed', listedEntries document member = .ok listed ∧
    listedEntries document' member = .ok listed' ∧ (listed.map place).Nodup ∧
    List.Forall₂ (EntryAlike rename member) listed middle ∧ middle.Perm listed'

structure DocumentsAlike (rename : Str → Str) (document document' : Fields) : Prop where
  members : ∀ member, MemberAlike rename member document document'
  catalogues : CataloguesAlike rename (schemasOf document) (schemasOf document')

theorem projectMember_alike (hupper : UpperEncodes) (hrename : Function.Injective rename)
    {document document' : Fields} (hcatalogues : CataloguesAlike rename (schemasOf document) (schemasOf document'))
    (h : MemberAlike rename member document document') :
    Agree (projectMember document member) (projectMember document' member) := by
  obtain ⟨listed, middle, listed', hlisted, hlisted', hplaces, halike, hperm⟩ := h
  have htext : ∀ entry ∈ listed, TextPlace entry := by
    intro entry hentry
    obtain ⟨other, -, hentries⟩ := exists_of_mem_left halike hentry
    exact hentries.text
  have hagrees : List.Forall₂ (fun a b => EntryAgrees (schemasOf document) (schemasOf document') member a b ∧
      SamePlace a b) listed middle :=
    halike.imp fun _ _ h => ⟨h.agrees hupper hrename hcatalogues, h.samePlace⟩
  have hmiddle : middle.map place = listed.map place := by
    clear hperm hlisted hplaces hagrees htext
    induction halike with
    | nil => rfl
    | cons hhead _ ih => rw [List.map_cons, List.map_cons, ih, hhead.place]
  have htext' : ∀ entry ∈ middle, TextPlace entry := by
    intro entry hentry
    obtain ⟨source, hsource, hentries⟩ := exists_of_mem_right halike hentry
    obtain ⟨htopic, hversion⟩ := htext source hsource
    exact ⟨hentries.samePlace.topic ▸ htopic, hentries.samePlace.version ▸ hversion⟩
  have hok : ∀ entry ∈ middle, ∃ q, projectEntry (schemasOf document') entry (entryFields member) = .ok q := by
    intro entry hentry
    obtain ⟨source, -, ⟨p, q, -, hq, -⟩, -⟩ := exists_of_mem_right hagrees hentry
    exact ⟨q, hq⟩
  unfold projectMember
  rw [hlisted, hlisted']
  show Agree (projectEntries _ member listed) (projectEntries _ member listed')
  rw [← projectEntries_perm htext' (hmiddle ▸ hplaces) hok hperm]
  exact projectEntries_alike htext hagrees

end Members

section Scopes

def entryInScope (topics : List Str) (entry : Fields) : Bool := isInScope topics (Json.getField entry "topic")

-- What an include-list leaves of a document.
def withinScope (topics : List Str) (document : Fields) : Fields :=
  match Json.getField document "requests" with
  | .arr values => Entries.set "requests"
      (.arr (values.filter fun value => (mapping? value).all (entryInScope topics))) document
  | _ => document

theorem getField_withinScope (topics : List Str) (document : Fields) {key : Str} (hkey : key ≠ "requests") :
    Json.getField (withinScope topics document) key = Json.getField document key := by
  unfold withinScope
  split
  · unfold Json.getField
    rw [Entries.get?_set, if_neg hkey.symm]
  · rfl

theorem schemasOf_withinScope (topics : List Str) (document : Fields) :
    schemasOf (withinScope topics document) = schemasOf document := by
  unfold schemasOf
  rw [getField_withinScope topics document (by decide)]

theorem filterMap_scope (topics : List Str) (values : List Json) :
    (values.filter fun value => (mapping? value).all (entryInScope topics)).filterMap mapping? =
      (values.filterMap mapping?).filter (entryInScope topics) := by
  induction values with
  | nil => rfl
  | cons value rest ih =>
      cases hmapping : mapping? value with
      | none =>
          rw [List.filter_cons_of_pos (by simp [hmapping]), List.filterMap_cons_none hmapping,
            List.filterMap_cons_none hmapping, ih]
      | some entry =>
          rw [List.filterMap_cons_some hmapping]
          cases hscope : entryInScope topics entry with
          | true =>
              rw [List.filter_cons_of_pos (by simp [hmapping, hscope]), List.filterMap_cons_some hmapping,
                List.filter_cons_of_pos hscope, ih]
          | false =>
              rw [List.filter_cons_of_neg (by simp [hmapping, hscope]),
                List.filter_cons_of_neg (by simp [hscope]), ih]

-- What is no list holds no mappings.
theorem mappings_eq_nil {value : Json} (hvalue : ∀ values, value ≠ .arr values) {entries : List Fields}
    (h : mappings value = .ok entries) : entries = [] := by
  obtain ⟨items, hitems, h⟩ := Except.bind_eq_ok.mp h
  cases h
  rw [List.filterMap_eq_nil_iff]
  intro item hitem
  cases item with
  | obj entry =>
      obtain ⟨values, hvalues, -⟩ := (mem_iter_obj hitems).mp hitem
      exact absurd hvalues (hvalue values)
  | null | bool _ | int _ | float _ | str _ | arr _ => rfl

variable [UnicodeData]

theorem listedEntries_requests (topics : List Str) {document : Fields} {listed : List Fields}
    (h : listedEntries document .requests = .ok listed) :
    listedEntries (withinScope topics document) .requests = .ok (listed.filter (entryInScope topics)) := by
  obtain ⟨entries, hentries, h⟩ := Except.bind_eq_ok.mp h
  cases h
  have hkey : Member.key .requests = "requests" := rfl
  rw [hkey] at hentries
  have hscoped : mappings (Json.getField (withinScope topics document) "requests") =
      .ok (entries.filter (entryInScope topics)) := by
    unfold withinScope
    cases hvalue : Json.getField document "requests" with
    | arr values =>
        rw [hvalue, mappings_of_arr] at hentries
        cases hentries
        simp only
        rw [Json.getField, Entries.get?_set, if_pos rfl, Option.getD_some, mappings_of_arr, filterMap_scope]
    | null | bool _ | int _ | float _ | str _ | obj _ =>
        rw [hvalue] at hentries
        have hnil := mappings_eq_nil (by simp) hentries
        simp only
        rw [hvalue, hentries, hnil, List.filter_nil]
  unfold listedEntries
  rw [hkey, hscoped]
  show Except.ok _ = Except.ok _
  rw [List.filter_filter, List.filter_filter]
  congr 1
  apply List.filter_congr
  intro entry _
  exact Bool.and_comm _ _

theorem listedEntries_others (topics : List Str) (document : Fields) {member : Member} (h : member ≠ .requests) :
    listedEntries (withinScope topics document) member = listedEntries document member := by
  have hkey : member.key ≠ "requests" := by
    cases member with
    | requests => exact absurd rfl h
    | events => decide
    | sends => decide
  unfold listedEntries
  rw [getField_withinScope topics document hkey]

theorem DocumentsAlike.withinScope {rename : Str → Str} {document document' : Fields}
    (h : DocumentsAlike rename document document') (topics : List Str) :
    DocumentsAlike rename (Contract.withinScope topics document) (Contract.withinScope topics document') where
  members := by
    intro member
    obtain ⟨listed, middle, listed', hlisted, hlisted', hplaces, halike, hperm⟩ := h.members member
    by_cases hmember : member = .requests
    · subst hmember
      refine ⟨_, _, _, listedEntries_requests topics hlisted, listedEntries_requests topics hlisted', ?_, ?_,
        hperm.filter _⟩
      · exact hplaces.sublist (List.filter_sublist.map place)
      · apply forall₂_filter _ halike
        intro a b hab
        unfold entryInScope Json.getField
        rw [hab.samePlace.topic]
    · rw [MemberAlike, listedEntries_others topics document hmember, listedEntries_others topics document' hmember]
      exact ⟨listed, middle, listed', hlisted, hlisted', hplaces, halike, hperm⟩
  catalogues := by
    rw [schemasOf_withinScope, schemasOf_withinScope]
    exact h.catalogues

theorem projection_alike (hupper : UpperEncodes) {rename : Str → Str} (hrename : Function.Injective rename)
    {document document' : Fields} (h : DocumentsAlike rename document document') (members : List Member) :
    ∃ p q, projection document members = .ok p ∧ projection document' members = .ok q ∧
      Entries.mapValues Json.canonical p = Entries.mapValues Json.canonical q := by
  induction members with
  | nil => exact ⟨[], [], rfl, rfl, rfl⟩
  | cons member rest ih =>
      obtain ⟨p, q, hp, hq, hpq⟩ := ih
      obtain ⟨v, w, hv, hw, hvw⟩ := projectMember_alike hupper hrename h.catalogues (h.members member)
      refine ⟨(member.key, v) :: p, (member.key, w) :: q, ?_, ?_, ?_⟩
      · rw [projection, hv, hp]
        rfl
      · rw [projection, hw, hq]
        rfl
      · unfold Entries.mapValues at *
        rw [List.map_cons, List.map_cons, hvw, hpq]

-- Documents that are alike have one canonical projection, over any members and within
-- any topics, and so one hash.
theorem canonicalProjection_alike (hupper : UpperEncodes) {rename : Str → Str}
    (hrename : Function.Injective rename) {document document' : Fields}
    (h : DocumentsAlike rename document document') (topics : List Str) (members : List Member) :
    (∃ p q, projection (withinScope topics document) members = .ok p ∧
      projection (withinScope topics document') members = .ok q ∧
      (Json.obj p).canonical = (Json.obj q).canonical) ∧
    ∀ hash, hashProjection hash (withinScope topics document) members =
      hashProjection hash (withinScope topics document') members := by
  obtain ⟨p, q, hp, hq, hpq⟩ := projection_alike hupper hrename (h.withinScope topics) members
  have hsame : (Json.obj p).canonical = (Json.obj q).canonical := by
    rw [Json.canonical_obj, Json.canonical_obj, hpq]
  refine ⟨⟨p, q, hp, hq, hsame⟩, ?_⟩
  intro hash
  unfold hashProjection
  rw [hp, hq]
  show hash _ = hash _
  rw [hsame]

-- The projection of what the generator's include-list leaves.
theorem projection_applyTopicScope {document narrowed : ContractDocument} {topics : List Str}
    (h : applyTopicScope document topics = .ok narrowed) (members : List Member) :
    projection (toRawDocument narrowed) members =
      projection (withinScope topics (toRawDocument document)) members := by
  have hnarrowed : narrowed = { document with
      requests := document.requests.filter fun r => isInScope topics r.topic
      contractHash := .null
      registrationHash := .null } := by
    unfold applyTopicScope at h
    simp only at h
    split at h
    · exact (Except.ok.inj h).symm
    · split at h
      · cases h
      · split at h
        · cases h
        · exact (Except.ok.inj h).symm
  have hlisted (document : ContractDocument) (member : Member) : listedEntries (toRawDocument document) member =
      .ok ((document.rawEntries member).filter fun entry => !isReserved entry) := by
    unfold listedEntries
    rw [getField_toRawDocument_member, mappings_arr]
    rfl
  have hmember (member : Member) : projectMember (toRawDocument narrowed) member =
      projectMember (withinScope topics (toRawDocument document)) member := by
    unfold projectMember
    rw [schemasOf_withinScope, schemasOf_toRawDocument, schemasOf_toRawDocument, hnarrowed]
    by_cases hrequests : member = .requests
    · subst hrequests
      rw [listedEntries_requests topics (hlisted document .requests), hlisted]
      show projectEntries _ _ _ = projectEntries _ _ _
      congr 1
      unfold ContractDocument.rawEntries
      rw [List.filter_filter, List.filter_map, List.filter_map, List.filter_filter]
      congr 1
      apply List.filter_congr
      intro r _
      exact Bool.and_comm _ _
    · rw [listedEntries_others topics _ hrequests, hlisted, hlisted]
      cases member with
      | requests => exact absurd rfl hrequests
      | events => rfl
      | sends => rfl
  induction members with
  | nil => rfl
  | cons member rest ih => rw [projection, projection, hmember, ih]

end Scopes

section Samples

theorem upperEncodes_ascii : letI := UnicodeData.ascii
    UpperEncodes := by
  intro text h
  unfold Str.upper
  split
  · intro c hc
    obtain ⟨d, hd, rfl⟩ := List.mem_map.mp hc
    unfold Str.upperAscii
    split
    next hlower =>
      simp only [CodePoint.isSurrogate, Bool.and_eq_false_iff, decide_eq_false_iff_not]
      omega
    next => exact h d hd
  · exact h

-- One entry over one component.
def componentDocument (name : Str) (request component : Json) : Fields :=
  [Json.field "requests" (.arr [.obj [Json.field "topic" (.str "order"), Json.field "request" request]]),
    Json.field "components" (.obj [Json.field "schemas" (.obj [(name, component)])])]

def lineDocument : Fields :=
  componentDocument "Line" (.obj [Json.field "$ref" (.str "#/components/schemas/Line")])
    (.obj [Json.field "type" (.str "string")])

def rowDocument : Fields :=
  componentDocument "Row" (.obj [Json.field "$ref" (.str "#/components/schemas/Row")])
    (.obj [Json.field "title" (.str "A row"), Json.field "type" (.str "string")])

def lineToRow : Str → Str := Equiv.swap ("Line" : Str) "Row"

theorem lineToRow_eq {name : Str} : lineToRow name = "Row" ↔ name = "Line" := by
  unfold lineToRow
  rw [← Equiv.eq_symm_apply, Equiv.symm_swap, Equiv.swap_apply_right]

theorem titled_alike : Alike lineToRow .schema (.obj [Json.field "type" (.str "string")])
    (.obj [Json.field "title" (.str "A row"), Json.field "type" (.str "string")]) := by
  have htitle {key : Str} (h : annotates key = false) : ("title" : Str) ≠ key := by
    rintro rfl
    revert h
    decide
  refine .keywords (by decide) (by decide) rfl rfl ?_ ?_ ?_
  · intro key hkey
    rw [Entries.get?_cons, Entries.get?_cons, if_neg (htitle hkey), Entries.get?_cons]
  · intro key v w hkey _ hv hw
    rw [Entries.get?_cons, if_neg (htitle hkey)] at hw
    rw [hv] at hw
    cases hw
    rw [Entries.get?_cons] at hv
    split at hv
    · cases hv
      exact .same (by simp)
    · cases hv
  · intro key v w hkey hpos hv _
    rw [Entries.get?_cons] at hv
    split at hv
    next htype =>
      subst htype
      exact absurd (by decide) hpos
    next => cases hv

theorem requests_alike : EntryAlike lineToRow .requests
    [Json.field "topic" (.str "order"),
      Json.field "request" (.obj [Json.field "$ref" (.str "#/components/schemas/Line")])]
    [Json.field "topic" (.str "order"),
      Json.field "request" (.obj [Json.field "$ref" (.str "#/components/schemas/Row")])] := by
  refine ⟨⟨⟨"order", rfl, Str.encodable_ofString _⟩, ?_⟩, by decide, by decide, ?_, ?_⟩
  · intro value hvalue
    cases hvalue
  · intro v w hv
    cases hv
  · intro name hname v w hv hw
    simp only [schemaFields, List.mem_cons, List.not_mem_nil, or_false] at hname
    rcases hname with rfl | rfl | rfl
    · cases hv
      cases hw
      exact .reference rfl (by decide)
    · cases hv
    · cases hv

theorem catalogues_alike : CataloguesAlike lineToRow (schemasOf lineDocument) (schemasOf rowDocument) := by
  refine ⟨?_, ?_⟩
  · intro name
    show Entries.get? name [(("Line" : Str), _)] = none ↔ Entries.get? (lineToRow name) [(("Row" : Str), _)] = none
    simp [eq_comm, lineToRow_eq]
  · intro name v w hv hw
    change Entries.get? name [(("Line" : Str), _)] = some v at hv
    change Entries.get? (lineToRow name) [(("Row" : Str), _)] = some w at hw
    rw [Entries.get?_cons] at hv hw
    split at hv
    next =>
      split at hw
      next =>
        cases hv
        cases hw
        exact titled_alike
      next => cases hw
    next => cases hv

theorem documents_alike : letI := UnicodeData.ascii
    DocumentsAlike lineToRow lineDocument rowDocument := by
  let _ := UnicodeData.ascii
  refine ⟨?_, catalogues_alike⟩
  intro member
  cases member with
  | requests => exact ⟨_, _, _, rfl, rfl, by decide, .cons requests_alike .nil, .refl _⟩
  | events | sends => exact ⟨[], [], [], rfl, rfl, List.nodup_nil, .nil, .nil⟩

theorem canonicalProjection_alike_renamed : letI := UnicodeData.ascii
    contractHash (fun value => .ok value.repr) (withinScope ["order"] lineDocument) =
      contractHash (fun value => .ok value.repr) (withinScope ["order"] rowDocument) := by
  let _ := UnicodeData.ascii
  exact (canonicalProjection_alike upperEncodes_ascii (Equiv.injective _) documents_alike ["order"]
    [.requests, .events]).2 _

end Samples

end Benzene.Contract
