import Benzene.Contract.OrderFree
import Benzene.Contract.Termination

namespace Benzene.Contract.Derivation

open Benzene.Data
open Benzene.Mesh (Member)

section Reordering

-- The same registrations, made in another order.
structure Reordered (registrations registrations' : Registrations) : Prop where
  handlers : registrations.handlers.Perm registrations'.handlers
  events : registrations.events.Perm registrations'.events
  sends : registrations.sends.Perm registrations'.sends

-- Each topic and version is registered once.
def Distinct (registrations : Registrations) : Prop :=
  ∀ member, ((registrations.declared member).map fun entry => (entry.topic, entry.version)).Nodup

variable {registrations registrations' : Registrations}

theorem Reordered.declared (h : Reordered registrations registrations') (member : Member) :
    (registrations.declared member).Perm (registrations'.declared member) := by
  cases member with
  | requests => exact (h.handlers.map _).filter _
  | events => exact (h.events.map _).filter _
  | sends => exact (h.sends.map _).filter _

theorem Reordered.starts (h : Reordered registrations registrations') :
    registrations'.starts = registrations.starts := by
  funext context pyType
  apply propext
  unfold Registrations.starts
  constructor
  · rintro ⟨hcontext, member, entry, hentry, htype⟩
    exact ⟨hcontext, member, entry, (h.declared member).mem_iff.mpr hentry, htype⟩
  · rintro ⟨hcontext, member, entry, hentry, htype⟩
    exact ⟨hcontext, member, entry, (h.declared member).mem_iff.mp hentry, htype⟩

variable {program : Program}

theorem DescribesEntry.unique {declared : Declared} {a b : Outlined} (ha : DescribesEntry program declared a)
    (hb : DescribesEntry program declared b) : a = b := by
  obtain ⟨declaredA, payloadA, responseA⟩ := a
  obtain ⟨declaredB, payloadB, responseB⟩ := b
  have hpayload : payloadA = payloadB := ha.payload.unique hb.payload
  have hresponse : responseA = responseB := by
    have hresponseA := ha.response
    have hresponseB := hb.response
    dsimp only at hresponseA hresponseB
    generalize declared.response = response at hresponseA hresponseB
    cases hresponseA with
    | none =>
        cases hresponseB
        rfl
    | some hdescribes =>
        cases hresponseB with
        | some hdescribes' => rw [hdescribes.unique hdescribes']
  have hdeclared : declaredA = declaredB := ha.same.trans hb.same.symm
  rw [hpayload, hresponse, hdeclared]

theorem describes_perm {a b : List Declared} (hperm : a.Perm b) {outlined outlined' : List Outlined}
    (h : List.Forall₂ (DescribesEntry program) a outlined) (h' : List.Forall₂ (DescribesEntry program) b outlined') :
    outlined.Perm outlined' := by
  obtain ⟨middle, hmiddle, hperm'⟩ := List.perm_comp_forall₂ hperm h'
  have hsame : outlined = middle := by
    clear hperm hperm' h'
    induction h generalizing middle with
    | nil =>
        cases hmiddle
        rfl
    | cons hfirst _ ih =>
        cases hmiddle with
        | cons hfirst' hrest' => rw [hfirst.unique hfirst', ih _ hrest']
  rw [hsame]
  exact hperm'

variable [UnicodeData]

omit [UnicodeData] in
theorem sortEntries_eq_of_perm {called : PyType → Str} {mappings : Str × Str → List (Str × Str)}
    {entries : List Declared}
    {outlined outlined' : List Outlined} (hdistinct : (entries.map fun entry => (entry.topic, entry.version)).Nodup)
    (h : List.Forall₂ (DescribesEntry program) entries outlined) (hperm : outlined.Perm outlined') :
    sortEntries (outlined.map (Outlined.entry called mappings)) =
      sortEntries (outlined'.map (Outlined.entry called mappings)) := by
  apply sortOn_eq_of_perm (hperm.map _)
  intro x hx y hy hxy
  obtain ⟨a, ha, rfl⟩ := List.mem_map.mp hx
  obtain ⟨b, hb, rfl⟩ := List.mem_map.mp hy
  obtain ⟨declaredA, hdeclaredA, hdescribesA⟩ := exists_of_mem_right h ha
  obtain ⟨declaredB, hdeclaredB, hdescribesB⟩ := exists_of_mem_right h hb
  have hkeys : (declaredA.topic, declaredA.version) = (declaredB.topic, declaredB.version) := by
    change [a.declared.topic, a.declared.version] = [b.declared.topic, b.declared.version] at hxy
    rw [hdescribesA.same, hdescribesB.same] at hxy
    simp only [List.cons.injEq, and_true] at hxy
    exact Prod.ext hxy.1 hxy.2
  have hsame : declaredA = declaredB := List.inj_on_of_nodup_map hdistinct hdeclaredA hdeclaredB hkeys
  rw [← hsame] at hdescribesB
  rw [hdescribesA.unique hdescribesB]

-- Every property of what is met has a name that can be written.
def Encodes (program : Program) (start : Context → PyType → Prop) : Prop :=
  ∀ context pyType key inner properties, Met program start context pyType →
    rule program context pyType = .component key → content program context key = .record inner properties →
    ∀ property ∈ properties, property.name.Encodable

theorem Catalogued.complete {components : List Component} {outlined : Member → List Outlined}
    (h : Catalogued program registrations components outlined) (hapart : Apart program registrations.starts)
    (hencodes : Encodes program registrations.starts) : Complete program registrations.starts components where
  ordered := h.adds.ordered
  settled := fun _ hmem => (h.adds.settled hmem).1
  hoists := fun _ => h.hoists_iff hapart
  encodable := hencodes

variable {fuel : Nat} {mappings : Str × Str → List (Str × Str)} {document : Document}

theorem Catalogued.grounded {components : List Component} {outlined : Member → List Outlined}
    (h : Catalogued program registrations components outlined) (hapart : Apart program registrations.starts) :
    Grounded program registrations.starts := by
  intro context pyType hmet
  obtain ⟨outline, hdescribes, -⟩ := h.describes hapart hmet
  exact ⟨outline, hdescribes⟩

-- The types that a document's entries declare.
def Registrations.types (registrations : Registrations) : List PyType :=
  [Member.requests, .events, .sends].flatMap fun member => (registrations.declared member).flatMap Declared.types

omit [UnicodeData] in
theorem starts_types (context : Context) (pyType : PyType) (h : registrations.starts context pyType) :
    context = topLevel ∧ pyType ∈ registrations.types := by
  obtain ⟨rfl, member, entry, hentry, htype⟩ := h
  refine ⟨rfl, List.mem_flatMap.mpr ⟨member, ?_, List.mem_flatMap.mpr ⟨entry, hentry, htype⟩⟩⟩
  cases member <;> simp

-- Deriving a document comes to an end where no type that it leads to is looked up without end, and
-- only there.
theorem terminates_iff (hapart : Apart program registrations.starts) (hencodes : Encodes program registrations.starts) :
    (∃ fuel, deriveDocument program fuel mappings registrations ≠ .error (.error .recursionError)) ↔
      Grounded program registrations.starts := by
  constructor
  · rintro ⟨fuel, hterminates⟩
    obtain ⟨components, outlined, hcatalogued, -⟩ := deriveDocument_catalogued hterminates
    exact hcatalogued.grounded hapart
  · intro hgrounded
    obtain ⟨enough, components, outlined, hcatalogued, hsettles⟩ :=
      Derives.document (hgrounded.derives starts_types) mappings
    refine ⟨enough, ?_⟩
    rw [hsettles enough (le_refl _)]
    rcases (hcatalogued.complete hapart hencodes).finish_cases hapart with
      ⟨schemas, hfinish⟩ | ⟨first, other, hfinish⟩
    · rw [hfinish]
      nofun
    · rw [hfinish]
      nofun

theorem Catalogued.sameTopics {components components' : List Component} {outlined outlined' : Member → List Outlined}
    (h : Catalogued program registrations components outlined)
    (h' : Catalogued program registrations' components' outlined') (hreordered : Reordered registrations registrations')
    (hapart : Apart program registrations.starts) :
    SameTopics components components'
      ((outlined .requests ++ outlined .events ++ outlined .sends).map Outlined.refs)
      ((outlined' .requests ++ outlined' .events ++ outlined' .sends).map Outlined.refs) := by
  intro key _ topic
  have hapart' : Apart program registrations'.starts := by
    rw [hreordered.starts]
    exact hapart
  rw [h.mem_topicsOf hapart, h'.mem_topicsOf hapart']
  constructor
  · rintro ⟨member, entry, hentry, htopic, huses⟩
    exact ⟨member, entry, (hreordered.declared member).mem_iff.mp hentry, htopic, huses⟩
  · rintro ⟨member, entry, hentry, htopic, huses⟩
    exact ⟨member, entry, (hreordered.declared member).mem_iff.mpr hentry, htopic, huses⟩

-- What becomes of some registrations, with enough fuel.
def Settles (program : Program) (mappings : Str × Str → List (Str × Str)) (registrations : Registrations)
    (outcome : Except DeriveError Document) : Prop :=
  ∃ enough, ∀ fuel ≥ enough, deriveDocument program fuel mappings registrations = outcome

theorem Settles.unique {outcome outcome' : Except DeriveError Document}
    (h : Settles program mappings registrations outcome) (h' : Settles program mappings registrations outcome') :
    outcome = outcome' := by
  obtain ⟨enough, hsettles⟩ := h
  obtain ⟨enough', hsettles'⟩ := h'
  rw [← hsettles (max enough enough') (le_max_left _ _), ← hsettles' (max enough enough') (le_max_right _ _)]

-- What registrations are derived to does not depend on their order.
theorem settles_reordered (hterminates : deriveDocument program fuel mappings registrations ≠
      .error (.error .recursionError))
    (hreordered : Reordered registrations registrations') (hdistinct : Distinct registrations)
    (hapart : Apart program registrations.starts) (hqualifies : Qualifies program registrations.starts)
    (hencodes : Encodes program registrations.starts) :
    Settles program mappings registrations' (deriveDocument program fuel mappings registrations) := by
  obtain ⟨components, outlined, hcatalogued, heq⟩ := deriveDocument_catalogued hterminates
  have hgrounded := hcatalogued.grounded hapart
  rw [← hreordered.starts] at hgrounded
  obtain ⟨enough, components', outlined', hcatalogued', hsettles⟩ :=
    Derives.document (hgrounded.derives starts_types) mappings
  refine ⟨enough, ?_⟩
  intro more hmore
  have htopics := hcatalogued.sameTopics hcatalogued' hreordered hapart
  have hcomplete := hcatalogued.complete hapart hencodes
  rw [← hreordered.starts] at hapart hencodes
  have hcomplete' := hcatalogued'.complete hapart hencodes
  rw [hreordered.starts] at hapart hcomplete'
  have hsorted : ∀ member listed, sortEntries ((outlined' member).map (Outlined.entry (componentName program) listed)) =
      sortEntries ((outlined member).map (Outlined.entry (componentName program) listed)) := by
    intro member listed
    have hperm := describes_perm (hreordered.declared member) (hcatalogued.entries member) (hcatalogued'.entries member)
    exact (sortEntries_eq_of_perm (hdistinct member) (hcatalogued.entries member) hperm).symm
  have hpublished : Outlined.published (componentName program) mappings outlined' =
      Outlined.published (componentName program) mappings outlined := by
    funext schemas
    unfold Outlined.published
    rw [hsorted, hsorted, hsorted]
  rw [hsettles more hmore, heq, hcomplete.finish_eq hcomplete' hapart hqualifies htopics, hpublished]

-- A document does not depend on the order of the registrations.
theorem deriveDocument_reordered (h : deriveDocument program fuel mappings registrations = .ok document)
    (hreordered : Reordered registrations registrations') (hdistinct : Distinct registrations)
    (hapart : Apart program registrations.starts) (hqualifies : Qualifies program registrations.starts)
    (hencodes : Encodes program registrations.starts) :
    ∃ enough, ∀ more ≥ enough, deriveDocument program more mappings registrations' = .ok document := by
  have hterminates : deriveDocument program fuel mappings registrations ≠ .error (.error .recursionError) := by
    rw [h]
    nofun
  rw [← h]
  exact settles_reordered hterminates hreordered hdistinct hapart hqualifies hencodes

-- Any two orders of the registrations derive to one document, or to one collision.
def OrderFree (program : Program) (mappings : Str × Str → List (Str × Str)) (registrations : Registrations) : Prop :=
  ∀ registrations', Reordered registrations registrations' →
    (∃ document, Settles program mappings registrations (.ok document) ∧
      Settles program mappings registrations' (.ok document)) ∨
    ∃ name types topics, Settles program mappings registrations (.error (.collision name types topics)) ∧
      Settles program mappings registrations' (.error (.collision name types topics))

-- Where no root model is met again while it is expanded, the order of registrations makes no
-- difference, provided that deriving them comes to an end.
theorem orderFree_iff_terminates (hdistinct : Distinct registrations) (hapart : Apart program registrations.starts)
    (hqualifies : Qualifies program registrations.starts) (hencodes : Encodes program registrations.starts) :
    OrderFree program mappings registrations ↔
      ∃ fuel, deriveDocument program fuel mappings registrations ≠ .error (.error .recursionError) := by
  constructor
  · intro h
    rcases h registrations ⟨.refl _, .refl _, .refl _⟩ with
      ⟨document, ⟨enough, hsettles⟩, -⟩ | ⟨name, types, topics, ⟨enough, hsettles⟩, -⟩
    · refine ⟨enough, ?_⟩
      rw [hsettles enough (le_refl _)]
      nofun
    · refine ⟨enough, ?_⟩
      rw [hsettles enough (le_refl _)]
      nofun
  · rintro ⟨fuel, hterminates⟩ registrations' hreordered
    have hsame := settles_reordered hterminates ⟨.refl _, .refl _, .refl _⟩ hdistinct hapart hqualifies hencodes
    have hother := settles_reordered hterminates hreordered hdistinct hapart hqualifies hencodes
    obtain ⟨components, outlined, hcatalogued, heq⟩ := deriveDocument_catalogued hterminates
    rw [heq] at hsame hother
    rcases (hcatalogued.complete hapart hencodes).finish_cases hapart with
      ⟨schemas, hfinish⟩ | ⟨first, other, hfinish⟩
    · rw [hfinish] at hsame hother
      exact .inl ⟨_, hsame, hother⟩
    · rw [hfinish] at hsame hother
      exact .inr ⟨_, _, _, hsame, hother⟩

end Reordering

section Sample

def headProgram : Program where
  classes := [
    ⟨"Node", "app", "Node", none, none,
      .dataclass [] [("next", .alias (.union "Optional") [.atom (.cls 0), .atom .none])] ["next"]⟩,
    ⟨"Head", "app", "Head", none, none,
      .dataclass [] [("first", .alias (.union "Optional") [.atom (.cls 0), .atom .none])] ["first"]⟩]
  aliasRepr := fun _ => []

def nodeType : PyType := .atom (.cls 0)

def headType : PyType := .atom (.cls 1)

def optionalNode : PyType := .alias (.union "Optional") [nodeType, .atom .none]

def nodesFirst : Registrations := ⟨[⟨"nodes", "", nodeType, .noPayload⟩, ⟨"heads", "", headType, .noPayload⟩], [], []⟩

def headsFirst : Registrations := ⟨[⟨"heads", "", headType, .noPayload⟩, ⟨"nodes", "", nodeType, .noPayload⟩], [], []⟩

theorem headsFirst_reordered : Reordered nodesFirst headsFirst := ⟨List.Perm.swap _ _ _, .nil, .nil⟩

theorem nodesFirst_distinct : Distinct nodesFirst := by
  intro member
  cases member <;> decide

def headDocument : Document where
  requests := [⟨"heads", "", .obj (reference "Head"), none, []⟩, ⟨"nodes", "", .obj (reference "Node"), none, []⟩]
  events := []
  sends := []
  schemas := [("Head", .obj (recordSchema [("first", .obj (nullable (reference "Node") (some "object")))] ["first"])),
    ("Node", .obj (recordSchema [("next", .obj (nullable (reference "Node") (some "object")))] ["next"]))]

theorem deriveDocument_nodesFirst : letI := UnicodeData.ascii
    deriveDocument headProgram 5 (fun _ => []) nodesFirst = .ok headDocument := by
  rfl

-- What a type of the sample is derived to.
theorem head_rules : rule headProgram topLevel nodeType = .component nodeType ∧
    rule headProgram topLevel headType = .component headType ∧
    rule headProgram topLevel optionalNode = .within topLevel nodeType (.nullable (some "object")) :=
  ⟨rfl, rfl, rfl⟩

theorem head_contents : letI := UnicodeData.ascii
    content headProgram topLevel nodeType = .record topLevel [⟨"next", some optionalNode, true⟩] ∧
      content headProgram topLevel headType = .record topLevel [⟨"first", some optionalNode, true⟩] := by
  exact ⟨rfl, rfl⟩

theorem met_head {context : Context} {pyType : PyType} : letI := UnicodeData.ascii
    Met headProgram nodesFirst.starts context pyType → context = topLevel ∧
      (pyType = nodeType ∨ pyType = headType ∨ pyType = optionalNode) := by
  let _ := UnicodeData.ascii
  intro h
  obtain ⟨hnode, hhead, hoptional⟩ := head_rules
  obtain ⟨hnodeRecord, hheadRecord⟩ := head_contents
  induction h with
  | start hstart =>
      obtain ⟨hcontext, member, entry, hentry, htype⟩ := hstart
      refine ⟨hcontext, ?_⟩
      cases member with
      | events | sends => cases hentry
      | requests =>
          rcases List.mem_cons.mp hentry with rfl | hentry
          · exact .inl (List.mem_singleton.mp htype)
          · cases List.mem_singleton.mp hentry
            exact .inr (.inl (List.mem_singleton.mp htype))
  | within _ hrule ih =>
      obtain ⟨rfl, rfl | rfl | rfl⟩ := ih
      · rw [hnode] at hrule
        cases hrule
      · rw [hhead] at hrule
        cases hrule
      · rw [hoptional] at hrule
        cases hrule
        exact ⟨rfl, .inl rfl⟩
  | property _ hrule hcontent hproperty htype ih =>
      obtain ⟨rfl, rfl | rfl | rfl⟩ := ih
      · rw [hnode] at hrule
        cases hrule
        rw [hnodeRecord] at hcontent
        cases hcontent
        cases List.mem_singleton.mp hproperty
        cases htype
        exact ⟨rfl, .inr (.inr rfl)⟩
      · rw [hhead] at hrule
        cases hrule
        rw [hheadRecord] at hcontent
        cases hcontent
        cases List.mem_singleton.mp hproperty
        cases htype
        exact ⟨rfl, .inr (.inr rfl)⟩
      · rw [hoptional] at hrule
        cases hrule

theorem hoisted_head {context : Context} {pyType key : PyType} : letI := UnicodeData.ascii
    Met headProgram nodesFirst.starts context pyType → rule headProgram context pyType = .component key →
      context = topLevel ∧ (key = nodeType ∨ key = headType) := by
  let _ := UnicodeData.ascii
  intro hmet hrule
  obtain ⟨hnode, hhead, hoptional⟩ := head_rules
  obtain ⟨rfl, rfl | rfl | rfl⟩ := met_head hmet
  · rw [hnode] at hrule
    cases hrule
    exact ⟨rfl, .inl rfl⟩
  · rw [hhead] at hrule
    cases hrule
    exact ⟨rfl, .inr rfl⟩
  · rw [hoptional] at hrule
    cases hrule

theorem apart_head : letI := UnicodeData.ascii; Apart headProgram nodesFirst.starts := by
  let _ := UnicodeData.ascii
  apply apart_of_noRootModels
  intro definition hmem root serialized hkind
  rcases List.mem_cons.mp hmem with rfl | hmem
  · cases hkind
  · cases List.mem_singleton.mp hmem
    cases hkind

theorem qualifies_head : letI := UnicodeData.ascii; Qualifies headProgram nodesFirst.starts := by
  let _ := UnicodeData.ascii
  rintro a b ⟨context, pyType, hmet, hrule⟩ ⟨context', pyType', hmet', hrule'⟩ hname _
  obtain ⟨-, rfl | rfl⟩ := hoisted_head hmet hrule <;> obtain ⟨-, rfl | rfl⟩ := hoisted_head hmet' hrule'
  · rfl
  · exact absurd hname (by decide)
  · exact absurd hname (by decide)
  · rfl

theorem encodes_head : letI := UnicodeData.ascii; Encodes headProgram nodesFirst.starts := by
  let _ := UnicodeData.ascii
  intro context pyType key inner properties hmet hrule hcontent property hproperty
  obtain ⟨hnodeRecord, hheadRecord⟩ := head_contents
  obtain ⟨rfl, rfl | rfl⟩ := hoisted_head hmet hrule
  · rw [hnodeRecord] at hcontent
    cases hcontent
    cases List.mem_singleton.mp hproperty
    decide
  · rw [hheadRecord] at hcontent
    cases hcontent
    cases List.mem_singleton.mp hproperty
    decide

theorem deriveDocument_headsFirst : letI := UnicodeData.ascii
    deriveDocument headProgram 5 (fun _ => []) nodesFirst = .ok headDocument ∧
      ∃ enough, ∀ more ≥ enough, deriveDocument headProgram more (fun _ => []) headsFirst = .ok headDocument := by
  exact ⟨deriveDocument_nodesFirst, @deriveDocument_reordered _ _ _ UnicodeData.ascii _ _ _ deriveDocument_nodesFirst
    headsFirst_reordered nodesFirst_distinct apart_head qualifies_head encodes_head⟩

end Sample

end Benzene.Contract.Derivation
