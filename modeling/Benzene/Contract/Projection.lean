import Benzene.Contract.Expansion
import Benzene.Mesh.SpecDoc

namespace Benzene.Contract

open Benzene.Data
open Benzene.Mesh (Member reservedTopicPrefix)

section Entries

-- The fields that an entry of each member keeps.
def entryFields : Member → List Str
  | .requests => ["topic", "version", "httpMappings", "request", "response"]
  | .events => ["topic", "version", "message"]
  | .sends => ["topic", "version", "request", "response"]

def schemaFields : List Str := ["request", "response", "message"]

-- `fields.get(key, "")`.
def getText (fields : Fields) (key : Str) : Json := (Entries.get? key fields).getD (.str [])

def mapping? : Json → Option Fields
  | .obj fields => some fields
  | _ => none

-- `for item in value or ()`, the mappings among the items.
def mappings (value : Json) : Except PyError (List Fields) := do
  return (← (Json.orElse value (.arr [])).iter).filterMap mapping?

variable [UnicodeData] (catalogue : Fields)

-- A method and a path, as a mapping's sort key.
def mappingKey (mapping : Str × Json) : Except PyError (List (List Nat)) := do
  return [← utf16Key (.str mapping.1), ← utf16Key mapping.2]

def projectHttpMappings (value : Json) : Except PyError Json := do
  let pairs := (← mappings value).map fun mapping =>
    (Str.upper (getText mapping "method").text, getText mapping "path")
  return .arr ((← sortedBy mappingKey pairs).map fun mapping =>
    .obj [Json.field "method" (.str mapping.1), Json.field "path" mapping.2])

def projectField (name : Str) (value : Json) : Except PyError Json :=
  if name ∈ schemaFields then normalizeSchema catalogue value
  else if name = "httpMappings" then projectHttpMappings value
  else .ok value

def projectEntry (entry : Fields) : List Str → Except PyError Fields
  | [] => .ok []
  | name :: rest =>
      match Entries.get? name entry with
      | none => projectEntry entry rest
      | some value => do
          let projected ← projectField catalogue name value
          return (name, projected) :: (← projectEntry entry rest)

-- Topic, then version with an absent version first.
def entryKey (entry : Fields) : Except PyError (List (List Nat)) := do
  match Entries.get? ("topic" : Str) entry with
  | none => .error ⟨.keyError, []⟩
  | some topic =>
      return [← utf16Key topic, [if (Entries.get? ("version" : Str) entry).isSome then 1 else 0],
        ← utf16Key (getText entry "version")]

end Entries

section Documents

-- `components.schemas`, where both are mappings.
def schemasOf (document : Fields) : Fields :=
  match Json.getField document "components" with
  | .obj components =>
      match Json.getField components "schemas" with
      | .obj schemas => schemas
      | _ => []
  | _ => []

variable [UnicodeData]

def isReserved (entry : Fields) : Bool := (getText entry "topic").text.startsWith reservedTopicPrefix

-- The entries of a member that are no reserved ones.
def listedEntries (document : Fields) (member : Member) : Except PyError (List Fields) := do
  return (← mappings (Json.getField document member.key)).filter fun entry => !isReserved entry

def projectEntries (catalogue : Fields) (member : Member) (listed : List Fields) : Except PyError Json := do
  let projected ← listed.mapM fun entry => projectEntry catalogue entry (entryFields member)
  return .arr ((← sortedBy entryKey projected).map .obj)

def projectMember (document : Fields) (member : Member) : Except PyError Json := do
  projectEntries (schemasOf document) member (← listedEntries document member)

-- Every named member is there, empty or not.
def projection (document : Fields) : List Member → Except PyError Fields
  | [] => .ok []
  | member :: rest => do
      let projected ← projectMember document member
      return (member.key, projected) :: (← projection document rest)

-- The canonical JSON text and its SHA-256, as a function of the canonical form.
abbrev HashFunction := Json → Except PyError Str

variable (hash : HashFunction)

def hashProjection (document : Fields) (members : List Member) : Except PyError Str := do
  hash (Json.obj (← projection document members)).canonical

def contractHash (document : Fields) : Except PyError Str := hashProjection hash document [.requests, .events]

def registrationHash (document : Fields) : Except PyError Str :=
  hashProjection hash document [.requests, .events, .sends]

end Documents

section Hashing

theorem nodup_memberKeys {members : List Member} (h : members.Nodup) : (members.map Member.key).Nodup := by
  apply h.map
  intro a b hab
  cases a <;> cases b <;> first | rfl | (revert hab; decide)

variable [UnicodeData]

theorem hashProjection_congr {a b : Fields} {members : List Member}
    (h : projection a members = projection b members) (hash : HashFunction) :
    hashProjection hash a members = hashProjection hash b members := by
  unfold hashProjection
  rw [h]

-- Hash functions tell projections apart by their canonical forms.
theorem projection_of_hashes {a b p : Fields} {members : List Member}
    (h : ∀ hash, hashProjection hash a members = hashProjection hash b members)
    (hb : projection b members = .ok p) :
    ∃ q, projection a members = .ok q ∧ (Json.obj q).canonical = (Json.obj p).canonical := by
  let hash : HashFunction := fun value =>
    if value = (Json.obj p).canonical then .ok [] else .error ⟨.valueError, []⟩
  have hhash := h hash
  unfold hashProjection at hhash
  rw [hb] at hhash
  have hp : hash (Json.obj p).canonical = .ok [] := if_pos rfl
  change _ = hash (Json.obj p).canonical at hhash
  rw [hp] at hhash
  obtain ⟨q, hq, hok⟩ := Except.bind_eq_ok.mp hhash
  refine ⟨q, hq, ?_⟩
  by_contra hne
  have herror : hash (Json.obj q).canonical = .error ⟨.valueError, []⟩ := if_neg hne
  rw [herror] at hok
  cases hok

theorem keys_projection {document p : Fields} {members : List Member}
    (h : projection document members = .ok p) : Entries.keys p = members.map Member.key := by
  induction members generalizing p with
  | nil =>
      cases h
      rfl
  | cons member rest ih =>
      obtain ⟨projected, -, h⟩ := Except.bind_eq_ok.mp h
      obtain ⟨q, hq, h⟩ := Except.bind_eq_ok.mp h
      cases h
      rw [Entries.keys_cons, ih hq, List.map_cons]

-- Projections of one canonical form have it member by member.
theorem projectMember_of_canonical {a b p q : Fields} {members : List Member}
    (ha : projection a members = .ok p) (hb : projection b members = .ok q)
    (hsame : Entries.mapValues Json.canonical p = Entries.mapValues Json.canonical q) :
    ∀ member ∈ members, Agree (projectMember a member) (projectMember b member) := by
  induction members generalizing p q with
  | nil => simp
  | cons member rest ih =>
      obtain ⟨v, hv, ha⟩ := Except.bind_eq_ok.mp ha
      obtain ⟨p', hp, ha⟩ := Except.bind_eq_ok.mp ha
      obtain ⟨w, hw, hb⟩ := Except.bind_eq_ok.mp hb
      obtain ⟨q', hq, hb⟩ := Except.bind_eq_ok.mp hb
      cases ha
      cases hb
      simp only [Entries.mapValues, List.map_cons, List.cons.injEq, Prod.mk.injEq, true_and] at hsame
      rw [List.forall_mem_cons]
      exact ⟨⟨v, w, hv, hw, hsame.1⟩, ih hp hq hsame.2⟩

theorem agree_of_hashes {a b p : Fields} {members : List Member} (hmembers : members.Nodup)
    (h : ∀ hash, hashProjection hash a members = hashProjection hash b members)
    (hb : projection b members = .ok p) :
    ∀ member ∈ members, Agree (projectMember a member) (projectMember b member) := by
  obtain ⟨q, hq, hsame⟩ := projection_of_hashes h hb
  have hkeys := (keys_projection hq).trans (keys_projection hb).symm
  apply projectMember_of_canonical hq hb
  apply Json.canonical_obj_inj hkeys _ hsame
  rw [keys_projection hq]
  exact nodup_memberKeys hmembers

end Hashing

end Benzene.Contract
