import Benzene.Contract.Document

namespace Benzene.Contract

open Benzene.Data

section Walk

-- What the walk follows under a keyword: one schema, a map of them, or a list of them.
inductive Walked
  | schema
  | properties
  | branches

variable (enter : Str → List Str → List Str)

mutual

-- The names reached after one schema; `enter` reaches a name and walks its component.
def walkAt : Walked → Json → List Str → List Str
  | .schema, .obj schema, reached =>
      let reached := match refName schema with
        | some name => enter name reached
        | none => reached
      walkKeyword "oneOf" .branches schema
        (walkKeyword "anyOf" .branches schema
          (walkKeyword "allOf" .branches schema
            (walkKeyword "properties" .properties schema
              (walkKeyword "additionalProperties" .schema schema
                (walkKeyword "items" .schema schema reached)))))
  | .properties, .obj members, reached => walkMembers members reached
  | .branches, .arr branches, reached => walkBranches branches reached
  | _, _, reached => reached

def walkKeyword (key : Str) (walked : Walked) : Fields → List Str → List Str
  | [], reached => reached
  | (k, value) :: rest, reached =>
      if k = key then walkAt walked value reached else walkKeyword key walked rest reached

def walkMembers : Fields → List Str → List Str
  | [], reached => reached
  | (_, value) :: rest, reached => walkMembers rest (walkAt .schema value reached)

def walkBranches : List Json → List Str → List Str
  | [], reached => reached
  | branch :: rest, reached => walkBranches rest (walkAt .schema branch reached)

end

variable (catalogue : Fields)

-- A name that was reached is not walked again, so that the walk ends.
def walkWithin : Nat → Json → List Str → List Str
  | 0 => walkAt (fun _ reached => reached) .schema
  | fuel + 1 => walkAt (fun name reached =>
      if name ∈ Entries.keys catalogue ∧ name ∉ reached then
        walkWithin fuel (component catalogue name) (name :: reached)
      else reached) .schema

def reachableNames (roots : List Json) : List Str :=
  roots.foldl (fun reached root => walkWithin catalogue (catalogue.length + 1) root reached) []

def reachableSchemas (roots : List Json) : Fields :=
  catalogue.filter fun entry => entry.1 ∈ reachableNames catalogue roots

end Walk

section Names

mutual

-- The names a schema refers to where the walk follows it, in the walk's order.
def walkNames : Walked → Json → List Str
  | .schema, .obj schema => (refName schema).toList ++ (keywordNames "items" .schema schema ++
      (keywordNames "additionalProperties" .schema schema ++
        (keywordNames "properties" .properties schema ++ (keywordNames "allOf" .branches schema ++
          (keywordNames "anyOf" .branches schema ++ keywordNames "oneOf" .branches schema)))))
  | .properties, .obj members => memberNames members
  | .branches, .arr branches => branchNames branches
  | _, _ => []

def keywordNames (key : Str) (walked : Walked) : Fields → List Str
  | [] => []
  | (k, value) :: rest => if k = key then walkNames walked value else keywordNames key walked rest

def memberNames : Fields → List Str
  | [] => []
  | (_, value) :: rest => walkNames .schema value ++ memberNames rest

def branchNames : List Json → List Str
  | [] => []
  | branch :: rest => walkNames .schema branch ++ branchNames rest

end

variable {enter : Str → List Str → List Str}

theorem walkKeyword_eq {schema : Fields} (h : ∀ keyword ∈ schema, ∀ walked reached,
    walkAt enter walked keyword.2 reached =
      (walkNames walked keyword.2).foldl (fun reached name => enter name reached) reached)
    (key : Str) (walked : Walked) (reached : List Str) :
    walkKeyword enter key walked schema reached =
      (keywordNames key walked schema).foldl (fun reached name => enter name reached) reached := by
  induction schema with
  | nil => rfl
  | cons keyword rest ih =>
      obtain ⟨k, value⟩ := keyword
      simp only [walkKeyword, keywordNames]
      by_cases hk : k = key
      · rw [if_pos hk, if_pos hk]
        exact h (k, value) List.mem_cons_self walked reached
      · rw [if_neg hk, if_neg hk]
        exact ih fun other hm => h other (List.mem_cons_of_mem _ hm)

theorem walkMembers_eq {members : Fields} (h : ∀ member ∈ members, ∀ reached,
    walkAt enter .schema member.2 reached =
      (walkNames .schema member.2).foldl (fun reached name => enter name reached) reached)
    (reached : List Str) :
    walkMembers enter members reached =
      (memberNames members).foldl (fun reached name => enter name reached) reached := by
  induction members generalizing reached with
  | nil => rfl
  | cons member rest ih =>
      obtain ⟨key, value⟩ := member
      rw [walkMembers, memberNames, List.foldl_append, h (key, value) List.mem_cons_self]
      exact ih (fun other hm => h other (List.mem_cons_of_mem _ hm)) _

theorem walkBranches_eq {branches : List Json} (h : ∀ branch ∈ branches, ∀ reached,
    walkAt enter .schema branch reached =
      (walkNames .schema branch).foldl (fun reached name => enter name reached) reached)
    (reached : List Str) :
    walkBranches enter branches reached =
      (branchNames branches).foldl (fun reached name => enter name reached) reached := by
  induction branches generalizing reached with
  | nil => rfl
  | cons branch rest ih =>
      rw [walkBranches, branchNames, List.foldl_append, h branch List.mem_cons_self]
      exact ih (fun other hm => h other (List.mem_cons_of_mem _ hm)) _

-- The walk of one schema is a visit of the names it refers to.
theorem walkAt_eq (schema : Json) (walked : Walked) (reached : List Str) :
    walkAt enter walked schema reached =
      (walkNames walked schema).foldl (fun reached name => enter name reached) reached := by
  induction schema using Json.induct generalizing walked reached with
  | null => cases walked <;> rfl
  | bool b => cases walked <;> rfl
  | int n => cases walked <;> rfl
  | float x => cases walked <;> rfl
  | str text => cases walked <;> rfl
  | arr items ih =>
      cases walked with
      | branches => exact walkBranches_eq (fun branch hm reached => ih branch hm .schema reached) reached
      | schema | properties => rfl
  | obj fields ih =>
      cases walked with
      | branches => rfl
      | properties => exact walkMembers_eq (fun member hm reached => ih member hm .schema reached) reached
      | schema =>
          have hkeyword := walkKeyword_eq ih
          simp only [walkAt, walkNames, List.foldl_append, hkeyword]
          cases refName fields with
          | none => rfl
          | some name => rfl

end Names

section Reachability

variable (catalogue : Fields)

-- The components reached from `names` through the keywords of the walk.
inductive Reaches (names : List Str) : Str → Prop
  | root {name : Str} (hname : name ∈ names) (hkey : name ∈ Entries.keys catalogue) : Reaches names name
  | step {middle name : Str} (hmiddle : Reaches names middle)
      (hname : name ∈ walkNames .schema (component catalogue middle))
      (hkey : name ∈ Entries.keys catalogue) : Reaches names name

-- What a visit of `names` adds to what was reached.
structure Visits (names reached after : List Str) : Prop where
  keeps : ∀ name ∈ reached, name ∈ after
  takes : ∀ name ∈ names, name ∈ Entries.keys catalogue → name ∈ after
  closed : ∀ middle ∈ after, middle ∉ reached →
    ∀ name ∈ walkNames .schema (component catalogue middle), name ∈ Entries.keys catalogue → name ∈ after
  grounded : ∀ name ∈ after, name ∉ reached → Reaches catalogue names name

variable {catalogue}

theorem Reaches.mono {names more : List Str} (h : ∀ name ∈ names, name ∈ more) {name : Str}
    (hr : Reaches catalogue names name) : Reaches catalogue more name := by
  induction hr with
  | root hname hkey => exact .root (h _ hname) hkey
  | step _ hname hkey ih => exact .step ih hname hkey

-- From the names of a reached component nothing new is reached.
theorem Reaches.through {names : List Str} {middle name : Str} (hmiddle : Reaches catalogue names middle)
    (hr : Reaches catalogue (walkNames .schema (component catalogue middle)) name) :
    Reaches catalogue names name := by
  induction hr with
  | root hname hkey => exact .step hmiddle hname hkey
  | step _ hname hkey ih => exact .step ih hname hkey

theorem remaining_mono {reached after : List Str} (h : ∀ name ∈ reached, name ∈ after) :
    remaining catalogue after ≤ remaining catalogue reached := by
  unfold remaining
  apply List.Sublist.length_le
  apply List.monotone_filter_right
  intro name hname
  simp only [decide_eq_true_eq] at hname ⊢
  exact fun hm => hname (h name hm)

theorem visits_nil (reached : List Str) : Visits catalogue [] reached reached where
  keeps := fun _ h => h
  takes := by simp
  closed := fun _ h hn => absurd h hn
  grounded := fun _ h hn => absurd h hn

-- A name that is reached already, or that is no component, adds nothing.
theorem Visits.cons_skip {name : Str} {rest reached after : List Str}
    (hskip : ¬ (name ∈ Entries.keys catalogue ∧ name ∉ reached))
    (h : Visits catalogue rest reached after) : Visits catalogue (name :: rest) reached after where
  keeps := h.keeps
  takes := by
    intro other hother hkey
    rcases List.mem_cons.mp hother with rfl | hother
    · apply h.keeps
      by_contra hn
      exact hskip ⟨hkey, hn⟩
    · exact h.takes other hother hkey
  closed := h.closed
  grounded := fun other ho hn => (h.grounded other ho hn).mono fun _ hm => List.mem_cons_of_mem _ hm

theorem Visits.cons_enter {name : Str} {rest reached middle after : List Str}
    (hkey : name ∈ Entries.keys catalogue)
    (hname : Visits catalogue (walkNames .schema (component catalogue name)) (name :: reached) middle)
    (hrest : Visits catalogue rest middle after) : Visits catalogue (name :: rest) reached after where
  keeps := fun other ho => hrest.keeps other (hname.keeps other (List.mem_cons_of_mem _ ho))
  takes := by
    intro other hother hk
    rcases List.mem_cons.mp hother with rfl | hother
    · exact hrest.keeps _ (hname.keeps _ List.mem_cons_self)
    · exact hrest.takes other hother hk
  closed := by
    intro other ho hn next hnext hk
    by_cases hmiddle : other ∈ middle
    · apply hrest.keeps
      by_cases heq : other = name
      · subst heq
        exact hname.takes next hnext hk
      · exact hname.closed other hmiddle (by simp [heq, hn]) next hnext hk
    · exact hrest.closed other ho hmiddle next hnext hk
  grounded := by
    intro other ho hn
    have hhere : Reaches catalogue (name :: rest) name := .root List.mem_cons_self hkey
    by_cases hmiddle : other ∈ middle
    · by_cases heq : other = name
      · exact heq ▸ hhere
      · exact hhere.through (hname.grounded other hmiddle (by simp [heq, hn]))
    · exact (hrest.grounded other ho hmiddle).mono fun _ hm => List.mem_cons_of_mem _ hm

theorem visits_walkWithin {fuel : Nat} {reached : List Str} (hfuel : remaining catalogue reached < fuel)
    (schema : Json) :
    Visits catalogue (walkNames .schema schema) reached (walkWithin catalogue fuel schema reached) := by
  induction fuel generalizing reached schema with
  | zero => omega
  | succ n ih =>
      rw [walkWithin, walkAt_eq]
      generalize walkNames .schema schema = names
      induction names generalizing reached with
      | nil => exact visits_nil reached
      | cons name rest ihnames =>
          rw [List.foldl_cons]
          by_cases hnew : name ∈ Entries.keys catalogue ∧ name ∉ reached
          · rw [if_pos hnew]
            have hlt := remaining_cons_lt hnew.1 hnew.2
            have hname := ih (by omega : remaining catalogue (name :: reached) < n) (component catalogue name)
            have hle : remaining catalogue
                (walkWithin catalogue n (component catalogue name) (name :: reached)) ≤
                remaining catalogue (name :: reached) := remaining_mono hname.keeps
            exact .cons_enter hnew.1 hname (ihnames (by omega))
          · rw [if_neg hnew]
            exact .cons_skip hnew (ihnames hfuel)

theorem Visits.append {names more reached middle after : List Str}
    (h : Visits catalogue names reached middle) (hmore : Visits catalogue more middle after) :
    Visits catalogue (names ++ more) reached after where
  keeps := fun name hn => hmore.keeps name (h.keeps name hn)
  takes := by
    intro name hname hkey
    rcases List.mem_append.mp hname with hname | hname
    · exact hmore.keeps name (h.takes name hname hkey)
    · exact hmore.takes name hname hkey
  closed := by
    intro name ho hn next hnext hkey
    by_cases hmiddle : name ∈ middle
    · exact hmore.keeps next (h.closed name hmiddle hn next hnext hkey)
    · exact hmore.closed name ho hmiddle next hnext hkey
  grounded := by
    intro name ho hn
    by_cases hmiddle : name ∈ middle
    · exact (h.grounded name hmiddle hn).mono fun _ hm => List.mem_append_left _ hm
    · exact (hmore.grounded name ho hmiddle).mono fun _ hm => List.mem_append_right _ hm

def rootNames (roots : List Json) : List Str := roots.flatMap (walkNames .schema)

theorem visits_reachableNames (roots : List Json) (reached : List Str) :
    Visits catalogue (rootNames roots) reached
      (roots.foldl (fun reached root => walkWithin catalogue (catalogue.length + 1) root reached) reached) := by
  induction roots generalizing reached with
  | nil => exact visits_nil reached
  | cons root rest ih =>
      have hle := remaining_le catalogue reached
      have hlt : remaining catalogue reached < catalogue.length + 1 := by omega
      exact (visits_walkWithin hlt root).append (ih _)

-- The walk reaches what its keywords lead to.
theorem mem_reachableNames (roots : List Json) (name : Str) :
    name ∈ reachableNames catalogue roots ↔ Reaches catalogue (rootNames roots) name := by
  have hvisits : Visits catalogue (rootNames roots) [] (reachableNames catalogue roots) :=
    visits_reachableNames roots []
  constructor
  · intro h
    exact hvisits.grounded name h (by simp)
  · intro h
    induction h with
    | root hname hkey => exact hvisits.takes _ hname hkey
    | step _ hname hkey ih => exact hvisits.closed _ ih (by simp) _ hname hkey

theorem Reaches.key {names : List Str} {name : Str} (h : Reaches catalogue names name) :
    name ∈ Entries.keys catalogue := by
  cases h with
  | root _ hkey => exact hkey
  | step _ _ hkey => exact hkey

theorem keys_reachableSchemas (roots : List Json) (name : Str) :
    name ∈ Entries.keys (reachableSchemas catalogue roots) ↔ Reaches catalogue (rootNames roots) name := by
  unfold reachableSchemas Entries.keys
  rw [List.mem_map]
  constructor
  · rintro ⟨entry, hentry, rfl⟩
    rw [List.mem_filter, decide_eq_true_eq, mem_reachableNames] at hentry
    exact hentry.2
  · intro h
    obtain ⟨entry, hentry, rfl⟩ := List.mem_map.mp h.key
    exact ⟨entry, List.mem_filter.mpr ⟨hentry, by simpa [mem_reachableNames] using h⟩, rfl⟩

theorem component_reachableSchemas {roots : List Json} {name : Str}
    (h : Reaches catalogue (rootNames roots) name) :
    component (reachableSchemas catalogue roots) name = component catalogue name := by
  unfold component reachableSchemas
  rw [Entries.get?_filter_of_pos (fun key => decide (key ∈ reachableNames catalogue roots))]
  rw [decide_eq_true_eq, mem_reachableNames]
  exact h

end Reachability

section Scope

def ContractDocument.findRequest (document : ContractDocument) (topic : Str) : Option RequestResponse :=
  document.requests.find? fun r => r.topic = .str topic

-- The component schemas that a request and its response reach.
def topicClosure (document : ContractDocument) (request : RequestResponse) : Fields :=
  reachableSchemas document.schemas [request.request, request.response]

-- One request's entry alone, over a catalogue.
def ContractDocument.only (document : ContractDocument) (request : RequestResponse) (schemas : Fields) :
    ContractDocument :=
  { document with
    requests := [request]
    events := []
    sends := []
    schemas := schemas
    contractHash := .null
    registrationHash := .null }

variable [UnicodeData]

-- A topic that is no text sorts and joins with nothing.
def topicNotFound (document : ContractDocument) (topic : Str) : PyError :=
  match document.requests.mapM fun r => match r.topic with
    | .str text => some text
    | _ => none with
  | some topics => ⟨.exception "TopicNotFoundError", ("Topic " : Str) ++ Str.repr topic ++
      (" is not present in the document. Valid topics: " : Str) ++
      Str.join ", " (Str.sorted topics) ++ ("." : Str)⟩
  | none => ⟨.typeError, []⟩

def topicProjection (document : ContractDocument) (topic : Str) : Except PyError ContractDocument :=
  match document.findRequest topic with
  | none => .error (topicNotFound document topic)
  | some request => .ok (document.only request (topicClosure document request))

def unknownTopics (document : ContractDocument) (unknown : List Str) : PyError :=
  match document.requests.mapM fun r => match r.topic with
    | .str text => some text
    | _ => none with
  | some known => ⟨.exception "UnknownTopicsError",
      ("--topics names topic(s) not present in the document: " : Str) ++ Str.join ", " (Str.sorted unknown) ++
        (". Valid topics: " : Str) ++ Str.join ", " (Str.sorted known.dedup) ++ ("." : Str)⟩
  | none => ⟨.typeError, []⟩

-- An include-list without topics leaves every request in scope.
def isInScope (topics : List Str) (topic : Json) : Bool := topics.isEmpty || topic ∈ topics.map .str

def applyTopicScope (document : ContractDocument) (topics : List Str) : Except PyError ContractDocument :=
  let narrowed := { document with
    requests := document.requests.filter fun r => isInScope topics r.topic
    contractHash := .null
    registrationHash := .null }
  let unknown := topics.filter fun topic => !document.requests.any fun r => r.topic = .str topic
  if topics = [] then .ok narrowed
  else if document.requests.any fun r => !r.topic.hashable then .error ⟨.typeError, []⟩
  else if unknown ≠ [] then .error (unknownTopics document unknown)
  else .ok narrowed

end Scope

end Benzene.Contract
