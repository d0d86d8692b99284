import Benzene.Data.WellFormed

namespace Benzene.Mesh

open Benzene.Data

def reservedTopicPrefix : Str := "benzene:"

def schemaRefPrefix : Str := "#/components/schemas/"

-- The three entry members of a Contract Document.
inductive Member
  | requests
  | events
  | sends
deriving DecidableEq

namespace Member

def key : Member → Str
  | .requests => "requests"
  | .events => "events"
  | .sends => "sends"

def all : List Member := [.requests, .events, .sends]

end Member

def isReservedTopic (topic : Str) : Bool := topic.startsWith reservedTopicPrefix

section Reading

variable [UnicodeData]

-- The service name a document declares.
def specService (document : Fields) (default : Str) : Str :=
  let name := Json.getField document "service"
  if name.truthy then name.text else default

def specText (document : Fields) (key : Str) : Option Str :=
  let value := Json.getField document key
  if value.truthy then some value.text else none

def specServiceVersion (document : Fields) : Option Str := specText document "serviceVersion"

-- The served hash, which a collector compares heartbeats against.
def specRegistrationHash (document : Fields) : Option Str := specText document "registrationHash"

-- The members `degraded` names.
def undetermined (document : Fields) : List Str :=
  match Json.getField document "degraded" with
  | .arr items => items.map Json.text
  | _ => []

-- The members the document asserts: present as a list and not in `degraded`.
def knownMembers (document : Fields) : List Member :=
  Member.all.filter fun member =>
    (Json.getField document member.key).isArr && member.key ∉ undetermined document

def entryTopic (entry : Fields) : Str := (Json.getField entry "topic").text

-- The well-formed, non-reserved entries of one member.
def specEntries (document : Fields) (member : Member) : List Fields :=
  match Json.getField document member.key with
  | .arr entries => entries.filterMap fun raw =>
      match raw with
      | .obj entry =>
          if (Json.getField entry "topic").truthy && !isReservedTopic (entryTopic entry)
          then some entry else none
      | _ => none
  | _ => []

-- The topics the members' entries name, in order of first occurrence.
def specTopicIds (document : Fields) (members : List Member) : List Str :=
  distinct (members.flatMap fun member => (specEntries document member).map entryTopic)

theorem mem_specEntries {document entry : Fields} {member : Member}
    (h : entry ∈ specEntries document member) :
    (Json.getField entry "topic").truthy = true ∧ isReservedTopic (entryTopic entry) = false := by
  unfold specEntries at h
  split at h
  · obtain ⟨raw, -, hraw⟩ := List.mem_filterMap.mp h
    split at hraw
    · split at hraw
      · cases hraw
        simp_all
      · cases hraw
    · cases hraw
  · cases h

theorem mem_specTopicIds {document : Fields} {members : List Member} {topic : Str} :
    topic ∈ specTopicIds document members ↔
      ∃ member ∈ members, ∃ entry ∈ specEntries document member, entryTopic entry = topic := by
  simp [specTopicIds]

theorem not_reserved_of_mem_specTopicIds {document : Fields} {members : List Member} {topic : Str}
    (h : topic ∈ specTopicIds document members) : isReservedTopic topic = false := by
  obtain ⟨member, -, entry, hentry, rfl⟩ := mem_specTopicIds.mp h
  exact (mem_specEntries hentry).2

end Reading

section Schemas

def asObject : Json → Fields
  | .obj fields => fields
  | _ => []

-- The document's `components.schemas`.
def schemaCatalogue (document : Fields) : Fields :=
  asObject (Json.getField (asObject (Json.getField document "components")) "schemas")

-- The component a reference names.
def schemaRef? (schema : Fields) : Option Str :=
  match Json.getField schema "$ref" with
  | .str ref => Str.stripPrefix? schemaRefPrefix ref
  | _ => none

mutual

-- A schema value with every reference in it replaced by what `expand` gives.
def resolveWith (expand : Str → Json) : Json → Json
  | .obj fields =>
      match schemaRef? fields with
      | some name => expand name
      | none => .obj (resolveFields expand fields)
  | .arr items => .arr (resolveItems expand items)
  | value => value

def resolveItems (expand : Str → Json) : List Json → List Json
  | [] => []
  | item :: rest => resolveWith expand item :: resolveItems expand rest

def resolveFields (expand : Str → Json) : Fields → Fields
  | [] => []
  | (key, value) :: rest => (key, resolveWith expand value) :: resolveFields expand rest

end

-- A reference met again on its own path is cut with `{}`. Each expansion takes
-- a new catalogue name, so the catalogue's length is fuel enough.
def resolveIn (schemas : Fields) : Nat → List Str → Json → Json
  | 0, _ => resolveWith fun _ => .obj []
  | fuel + 1, seen => resolveWith fun name =>
      if name ∈ seen then .obj []
      else match Entries.get? name schemas with
        | some (.obj target) => resolveIn schemas fuel (name :: seen) (.obj target)
        | _ => .obj []

def resolveSchema (schema : Json) (schemas : Fields) : Json :=
  match schema with
  | .obj _ => resolveIn schemas schemas.length [] schema
  | _ => .obj []

theorem resolveItems_eq (expand : Str → Json) (items : List Json) :
    resolveItems expand items = items.map (resolveWith expand) := by
  induction items with
  | nil => rfl
  | cons item rest ih => rw [resolveItems, ih, List.map_cons]

theorem resolveFields_eq (expand : Str → Json) (fields : Fields) :
    resolveFields expand fields = Entries.mapValues (resolveWith expand) fields := by
  induction fields with
  | nil => rfl
  | cons field rest ih =>
      obtain ⟨key, value⟩ := field
      rw [resolveFields, ih]
      rfl

end Schemas

section Hereditary

variable {P : Json → Prop} (hP : Json.Hereditary P)

include hP

-- The parts of a document have what the document has, and so have its schemas
-- with their references resolved.
theorem hereditary_asObject {j : Json} (h : P j) : P (.obj (asObject j)) := by
  cases j with
  | obj fields => exact h
  | _ => exact hP.empty

theorem hereditary_schemaCatalogue {document : Fields} (h : P (.obj document)) :
    P (.obj (schemaCatalogue document)) :=
  hereditary_asObject hP (hP.getField (hereditary_asObject hP (hP.getField h _)) _)

theorem hereditary_specEntries {document : Fields} (h : P (.obj document)) (member : Member) [UnicodeData] :
    ∀ entry ∈ specEntries document member, P (.obj entry) := by
  intro entry hentry
  have hmember := hP.getField h member.key
  unfold specEntries at hentry
  split at hentry
  · rename_i entries harr
    rw [harr, hP.arr] at hmember
    obtain ⟨raw, hraw, hsome⟩ := List.mem_filterMap.mp hentry
    split at hsome
    · split at hsome
      · cases hsome
        exact hmember _ hraw
      · cases hsome
    · cases hsome
  · cases hentry

theorem hereditary_resolveWith {expand : Str → Json} (hexpand : ∀ name, P (expand name)) {j : Json} (h : P j) :
    P (resolveWith expand j) := by
  induction j using Json.induct with
  | arr items ih =>
      rw [resolveWith, resolveItems_eq, hP.arr]
      intro item hitem
      obtain ⟨original, horiginal, rfl⟩ := List.mem_map.mp hitem
      exact ih original horiginal (hP.arr.mp h original horiginal)
  | obj fields ih =>
      rw [resolveWith]
      split
      · exact hexpand _
      · rw [resolveFields_eq]
        exact hP.mapped h fun field hfield => ih field hfield (hP.member h field hfield)
  | null => exact h
  | bool b => exact h
  | int n => exact h
  | float x => exact h
  | str s => exact h

theorem hereditary_resolveIn {schemas : Fields} (hschemas : P (.obj schemas)) (fuel : Nat) (seen : List Str)
    {j : Json} (h : P j) : P (resolveIn schemas fuel seen j) := by
  induction fuel generalizing seen j with
  | zero => exact hereditary_resolveWith hP (fun _ => hP.empty) h
  | succ fuel ih =>
      refine hereditary_resolveWith hP (fun name => ?_) h
      split
      · exact hP.empty
      · split
        · rename_i hget
          exact ih (name :: seen) (hP.member hschemas _ (Entries.mem_of_get? hget))
        · exact hP.empty

theorem hereditary_resolveSchema {schemas : Fields} (hschemas : P (.obj schemas)) {schema : Json} (h : P schema) :
    P (resolveSchema schema schemas) := by
  unfold resolveSchema
  split
  · exact hereditary_resolveIn hP hschemas _ _ h
  · exact hP.empty

end Hereditary

end Benzene.Mesh
