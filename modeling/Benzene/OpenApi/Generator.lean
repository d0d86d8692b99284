import Benzene.Data.Canonical
import Benzene.Http.Invoke
import Benzene.OpenApi.Names
import Mathlib.Data.Prod.Lex

namespace Benzene.OpenApi

open Benzene.Data Benzene.Results
open Benzene.Http (toHttp)

section Registry

-- What is read of a registered handler. A type may be absent.
structure HandlerTypes (τ : Type) where
  topic : Str
  version : Str := []
  requestType : τ
  responseType : τ

def HandlerTypes.key {τ : Type} (definition : HandlerTypes τ) : Str × Str := (definition.topic, definition.version)

-- Each topic and version has at most one handler.
structure Registry (τ : Type) where
  definitions : List (HandlerTypes τ)
  distinct : (definitions.map HandlerTypes.key).Nodup

end Registry

section Objects

def openapiVersion : Str := "3.1.0"

def errorSchemaName : Str := "BenzeneProblem"

def errorItemSchemaName : Str := "BenzeneError"

def problemMediaType : Str := "application/problem+json"

def componentRef (name : Str) : Json := .obj [Json.field "$ref" (.str (("#/components/schemas/" : Str) ++ name))]

def typed (type : String) : Json := .obj [Json.field "type" (.str type)]

def errorItemSchema : Json :=
  .obj [Json.field "type" (.str "object"),
    Json.field "properties" (.obj [Json.field "message" (typed "string"), Json.field "field" (typed "string"),
      Json.field "code" (typed "string")]),
    Json.field "required" (.arr [.str "message"])]

def errorSchema : Json :=
  .obj [Json.field "type" (.str "object"),
    Json.field "properties" (.obj [
      Json.field "type" (.obj [Json.field "type" (.str "string"), Json.field "format" (.str "uri")]),
      Json.field "title" (typed "string"), Json.field "status" (typed "integer"),
      Json.field "detail" (typed "string"), Json.field "instance" (typed "string"),
      Json.field "benzeneStatus" (typed "string"),
      Json.field "errors" (.obj [Json.field "type" (.str "array"),
        Json.field "items" (componentRef errorItemSchemaName)])]),
    Json.field "required" (.arr [.str "benzeneStatus", .str "status"])]

def content (mediaType schemaName : Str) : Json :=
  .obj [(mediaType, .obj [Json.field "schema" (componentRef schemaName)])]

def jsonContent (schemaName : Str) : Json := content "application/json" schemaName

-- The failure statuses with their codes, in the order of the codes.
def failureCodes : List (Int × Str) :=
  sortOn (fun row => toLex row) (failureStatuses.map fun status => (toHttp status false, status)).dedup

def responses (responseName : Str) : Json :=
  .obj (Entries.update
    [Json.field "200" (.obj [Json.field "description" (.str "ok"), Json.field "content" (jsonContent responseName)])]
    (failureCodes.map fun row => (Str.ofInt row.1, .obj [Json.field "description" (.str row.2),
      Json.field "content" (content problemMediaType errorSchemaName)])))

variable {τ : Type}

def operation (definition : HandlerTypes τ) (operation requestName responseName : Str) : Json :=
  let summary := ("Invoke topic " : Str) ++ definition.topic
  .obj [Json.field "operationId" (.str operation),
    Json.field "summary" (.str (if definition.version = [] then summary
      else summary ++ (" (version " : Str) ++ definition.version ++ (")" : Str))),
    Json.field "requestBody" (.obj [Json.field "required" (.bool true),
      Json.field "content" (jsonContent requestName)]),
    Json.field "responses" (responses responseName)]

end Objects

section Document

variable [UnicodeData] {τ : Type} (jsonSchema : τ → Json) (invokeBase : Str)

-- The names that a handler's operation and components get.
structure Naming where
  operation : Str
  request : Str
  response : Str

def slash : CodePoint := CodePoint.ofChar '/'

def pathOf (definition : HandlerTypes τ) : Str :=
  let path := invokeBase ++ slash :: definition.topic
  if definition.version = [] then path else path ++ slash :: definition.version

def pathItem (definition : HandlerTypes τ) (naming : Naming) : Json :=
  .obj [Json.field "post" (operation definition naming.operation naming.request naming.response)]

def namingAt (definition : HandlerTypes τ) (n : Nat) : Naming where
  operation := suffixed (operationId definition.topic definition.version) n
  request := suffixed (schemaName definition.topic definition.version "Request") n
  response := suffixed (schemaName definition.topic definition.version "Response") n

-- What has been emitted so far.
structure Projection where
  paths : Fields
  schemas : Fields
  usedOperationIds : List Str

def Projection.start : Projection where
  paths := []
  schemas := [(errorSchemaName, errorSchema), (errorItemSchemaName, errorItemSchema)]
  usedOperationIds := []

def Projection.taken (state : Projection) (naming : Naming) : Bool :=
  naming.request ∈ Entries.keys state.schemas || naming.response ∈ Entries.keys state.schemas ||
    naming.operation ∈ state.usedOperationIds

def Projection.add (state : Projection) (definition : HandlerTypes τ) (naming : Naming) : Projection where
  paths := Entries.set (pathOf invokeBase definition) (pathItem definition naming) state.paths
  schemas := Entries.set naming.response (jsonSchema definition.responseType)
    (Entries.set naming.request (jsonSchema definition.requestType) state.schemas)
  usedOperationIds := naming.operation :: state.usedOperationIds

-- Three families of names are tried until none is taken: each name in use takes at most one
-- number of a family.
def Projection.emit (state : Projection) (definition : HandlerTypes τ) : Option Projection := do
  let fuel := 2 * (Entries.keys state.schemas).length + state.usedOperationIds.length + 1
  let n ← firstFree (fun n => state.taken (namingAt definition n)) fuel 0
  return state.add jsonSchema invokeBase definition (namingAt definition n)

structure Document where
  openapi : Str
  title : Str
  version : Str
  paths : Fields
  schemas : Fields

def Projection.document (state : Projection) (title version : Str) : Document where
  openapi := openapiVersion
  title := title
  version := version
  paths := sortOn Prod.fst state.paths
  schemas := sortOn Prod.fst state.schemas

-- `none` is a search for a free name without end.
def openapiDocument (title version : Str) (registry : Registry τ) : Option Document := do
  let definitions := sortOn (fun definition => toLex definition.key) registry.definitions
  let state ← definitions.foldlM (Projection.emit jsonSchema invokeBase) .start
  return state.document title version

end Document

section Emission

variable {τ : Type} {jsonSchema : τ → Json} {invokeBase : Str}

abbrev Named (τ : Type) := HandlerTypes τ × Naming

def Named.path (invokeBase : Str) (entry : Named τ) : Str := pathOf invokeBase entry.1

def Named.item (entry : Named τ) : Json := pathItem entry.1 entry.2

def Named.components (entry : Named τ) : List Str := [entry.2.request, entry.2.response]

-- The components that the failures share.
def sharedComponents : Fields := [(errorSchemaName, errorSchema), (errorItemSchemaName, errorItemSchema)]

-- What the handlers that were walked have put into the document.
structure Emitted (jsonSchema : τ → Json) (invokeBase : Str) (done : List (Named τ)) (state : Projection) : Prop where
  operations : state.usedOperationIds = (done.map fun entry => entry.2.operation).reverse
  distinctOperations : (done.map fun entry => entry.2.operation).Nodup
  names : Entries.keys state.schemas = Entries.keys sharedComponents ++ done.flatMap Named.components
  distinctNames : (Entries.keys state.schemas).Nodup
  shared : ∀ name schema, Entries.get? name sharedComponents = some schema →
    Entries.get? name state.schemas = some schema
  request : ∀ entry ∈ done, Entries.get? entry.2.request state.schemas = some (jsonSchema entry.1.requestType)
  response : ∀ entry ∈ done, Entries.get? entry.2.response state.schemas = some (jsonSchema entry.1.responseType)
  pathKeys : (Entries.keys state.paths).Nodup
  paths : (done.map (Named.path invokeBase)).Nodup →
    state.paths = done.map fun entry => (entry.path invokeBase, entry.item)

theorem emitted_start : Emitted jsonSchema invokeBase [] .start where
  operations := rfl
  distinctOperations := List.nodup_nil
  names := rfl
  distinctNames := by decide
  shared := fun _ _ h => h
  request := List.forall_mem_nil _
  response := List.forall_mem_nil _
  pathKeys := List.nodup_nil
  paths := fun _ => rfl

variable {done : List (Named τ)} {state : Projection}

-- Components that are there stay as they are.
theorem get?_add {definition : HandlerTypes τ} {naming : Naming}
    (hfree : state.taken naming = false) {name : Str} {schema : Json}
    (hget : Entries.get? name state.schemas = some schema) :
    Entries.get? name (state.add jsonSchema invokeBase definition naming).schemas = some schema := by
  simp only [Projection.taken, Bool.or_eq_false_iff, decide_eq_false_iff_not] at hfree
  obtain ⟨⟨hrequest, hresponse⟩, -⟩ := hfree
  have hmem : name ∈ Entries.keys state.schemas := by
    by_contra hmissing
    rw [(Entries.get?_eq_none_iff name state.schemas).mpr hmissing] at hget
    cases hget
  have hne : naming.request ≠ name := fun heq => hrequest (heq ▸ hmem)
  have hne' : naming.response ≠ name := fun heq => hresponse (heq ▸ hmem)
  rw [Projection.add, Entries.get?_set, if_neg hne', Entries.get?_set, if_neg hne, hget]

theorem Emitted.add (h : Emitted jsonSchema invokeBase done state) {definition : HandlerTypes τ} {naming : Naming}
    (hne : naming.request ≠ naming.response) (hfree : state.taken naming = false) :
    Emitted jsonSchema invokeBase (done ++ [(definition, naming)])
      (state.add jsonSchema invokeBase definition naming) := by
  have hkeeps := @get?_add _ jsonSchema invokeBase state definition naming hfree
  simp only [Projection.taken, Bool.or_eq_false_iff, decide_eq_false_iff_not] at hfree
  obtain ⟨⟨hrequest, hresponse⟩, hoperation⟩ := hfree
  have hkeys : Entries.keys (state.add jsonSchema invokeBase definition naming).schemas =
      Entries.keys state.schemas ++ [naming.request, naming.response] := by
    have hresponse' : naming.response ∉
        Entries.keys (Entries.set naming.request (jsonSchema definition.requestType) state.schemas) := by
      rw [Entries.mem_keys_set, not_or]
      exact ⟨hne.symm, hresponse⟩
    rw [Projection.add, Entries.keys_set, if_neg hresponse', Entries.keys_set, if_neg hrequest, List.append_assoc]
    rfl
  constructor
  · rw [List.map_append, List.reverse_append, ← h.operations]
    rfl
  · rw [h.operations, List.mem_reverse] at hoperation
    rw [List.map_append]
    exact List.nodup_append_comm.mpr (List.nodup_cons.mpr ⟨hoperation, h.distinctOperations⟩)
  · rw [hkeys, h.names, List.flatMap_append, List.append_assoc]
    rfl
  · rw [hkeys, List.nodup_append]
    refine ⟨h.distinctNames, by simp [hne], ?_⟩
    rintro name hname other hother rfl
    rcases List.mem_cons.mp hother with rfl | hother
    · exact hrequest hname
    · rw [List.mem_singleton] at hother
      exact hresponse (hother ▸ hname)
  · intro name schema hget
    exact hkeeps (h.shared name schema hget)
  · intro entry hentry
    rcases List.mem_append.mp hentry with hentry | hentry
    · exact hkeeps (h.request entry hentry)
    · rw [List.mem_singleton] at hentry
      subst hentry
      rw [Projection.add, Entries.get?_set, if_neg hne.symm, Entries.get?_set_self]
  · intro entry hentry
    rcases List.mem_append.mp hentry with hentry | hentry
    · exact hkeeps (h.response entry hentry)
    · rw [List.mem_singleton] at hentry
      subst hentry
      exact Entries.get?_set_self _ _ _
  · exact Entries.nodup_keys_set h.pathKeys
  · intro hpaths
    rw [List.map_append, List.map_singleton] at hpaths
    obtain ⟨hnew, hdone⟩ := List.nodup_cons.mp (List.nodup_append_comm.mp hpaths)
    have hpathsDone := h.paths hdone
    have hmissing : pathOf invokeBase definition ∉ Entries.keys state.paths := by
      rw [hpathsDone, Entries.keys, List.map_map]
      exact hnew
    rw [Projection.add, Entries.set_eq_append hmissing, hpathsDone, List.map_append]
    rfl

variable [UnicodeData]

theorem emit_names (state : Projection) (definition : HandlerTypes τ) :
    ∃ n, firstFree (fun n => state.taken (namingAt definition n))
      (2 * (Entries.keys state.schemas).length + state.usedOperationIds.length + 1) 0 = some n := by
  refine @firstFree_isSome _ _ (fun n => (namingAt definition n).request)
    (fun n => (namingAt definition n).response) (fun n => (namingAt definition n).operation) _ _
    (fun _ _ => suffixed_inj) (fun _ _ => suffixed_inj) (fun _ _ => suffixed_inj) ?_ (Nat.lt_succ_self _)
  intro n htaken
  simp only [Projection.taken, Bool.or_eq_true, decide_eq_true_eq] at htaken
  exact or_assoc.mp htaken

theorem Emitted.emit (h : Emitted jsonSchema invokeBase done state) (definition : HandlerTypes τ) :
    ∃ naming, state.emit jsonSchema invokeBase definition = some (state.add jsonSchema invokeBase definition naming) ∧
      Emitted jsonSchema invokeBase (done ++ [(definition, naming)])
        (state.add jsonSchema invokeBase definition naming) := by
  obtain ⟨n, hn⟩ := emit_names state definition
  refine ⟨namingAt definition n, ?_, h.add ?_ (firstFree_some hn)⟩
  · unfold Projection.emit
    dsimp only
    rw [hn]
    rfl
  · exact schemaName_ne definition.topic definition.version n

-- Every handler of a list is emitted in turn.
theorem Emitted.foldlM (h : Emitted jsonSchema invokeBase done state) (definitions : List (HandlerTypes τ)) :
    ∃ entries state', definitions.foldlM (Projection.emit jsonSchema invokeBase) state = some state' ∧
      entries.map Prod.fst = definitions ∧ Emitted jsonSchema invokeBase (done ++ entries) state' := by
  induction definitions generalizing done state with
  | nil => exact ⟨[], state, rfl, rfl, by rwa [List.append_nil]⟩
  | cons definition rest ih =>
      obtain ⟨naming, hemit, hnext⟩ := h.emit definition
      obtain ⟨entries, state', hrest, hentries, hfinal⟩ := ih hnext
      refine ⟨(definition, naming) :: entries, state', ?_, ?_, ?_⟩
      · rw [List.foldlM_cons, hemit]
        exact hrest
      · rw [List.map_cons, hentries]
      · rwa [List.append_assoc] at hfinal

end Emission

section Projection

variable [UnicodeData] {τ : Type} (jsonSchema : τ → Json) (invokeBase : Str)

-- An operation of its own at a path of its own, whose references name components that hold
-- the handler's own schemas.
structure Serves (document : Document) (entry : Named τ) : Prop where
  operation : Entries.get? (entry.path invokeBase) document.paths = some entry.item
  request : Entries.get? entry.2.request document.schemas = some (jsonSchema entry.1.requestType)
  response : Entries.get? entry.2.response document.schemas = some (jsonSchema entry.1.responseType)

-- One operation for each registered handler and no other one, and no two handlers that share
-- a path, an operation id or a component.
structure Projects (registry : Registry τ) (document : Document) (entries : List (Named τ)) : Prop where
  handlers : (entries.map Prod.fst).Perm registry.definitions
  paths : (Entries.keys document.paths).Perm (entries.map (Named.path invokeBase))
  distinctPaths : (entries.map (Named.path invokeBase)).Nodup
  distinctOperations : (entries.map fun entry => entry.2.operation).Nodup
  distinctComponents : (Entries.keys sharedComponents ++ entries.flatMap Named.components).Nodup
  serves : ∀ entry ∈ entries, Serves jsonSchema invokeBase document entry

def LosesNoHandler (title version : Str) (registry : Registry τ) : Prop :=
  ∃ document entries, openapiDocument jsonSchema invokeBase title version registry = some document ∧
    Projects jsonSchema invokeBase registry document entries

variable {jsonSchema invokeBase} {title version : Str} {registry : Registry τ}

omit [UnicodeData] in
theorem get?_sortOn {entries : Fields} (h : (Entries.keys entries).Nodup) (key : Str) :
    Entries.get? key (sortOn Prod.fst entries) = Entries.get? key entries := by
  have hperm := sortOn_perm Prod.fst entries
  have hsorted : (Entries.keys (sortOn Prod.fst entries)).Nodup := (hperm.map _).nodup_iff.mpr h
  cases hget : Entries.get? key entries with
  | some value => exact Entries.get?_of_mem hsorted (hperm.mem_iff.mpr (Entries.mem_of_get? hget))
  | none =>
      rw [Entries.get?_eq_none_iff] at hget ⊢
      exact fun hmem => hget ((hperm.map _).mem_iff.mp hmem)

omit [UnicodeData] in
theorem map_path (entries : List (Named τ)) :
    entries.map (Named.path invokeBase) = (entries.map Prod.fst).map (pathOf invokeBase) := by
  rw [List.map_map]
  rfl

theorem paths_of_losesNoHandler (h : LosesNoHandler jsonSchema invokeBase title version registry) :
    (registry.definitions.map (pathOf invokeBase)).Nodup := by
  obtain ⟨document, entries, -, hprojects⟩ := h
  have hpaths := hprojects.distinctPaths
  rw [map_path] at hpaths
  exact (hprojects.handlers.map _).nodup_iff.mp hpaths

omit [UnicodeData] in
theorem Emitted.projects {entries : List (Named τ)} {state : Projection}
    (h : Emitted jsonSchema invokeBase entries state) (hhandlers : (entries.map Prod.fst).Perm registry.definitions)
    (hpaths : (registry.definitions.map (pathOf invokeBase)).Nodup) :
    Projects jsonSchema invokeBase registry (state.document title version) entries := by
  have hdistinct : (entries.map (Named.path invokeBase)).Nodup := by
    rw [map_path]
    exact (hhandlers.map _).nodup_iff.mpr hpaths
  have hstate := h.paths hdistinct
  refine ⟨hhandlers, ?_, hdistinct, h.distinctOperations, ?_, ?_⟩
  · have hkeys : Entries.keys state.paths = entries.map (Named.path invokeBase) := by
      rw [hstate, Entries.keys, List.map_map]
      rfl
    rw [← hkeys]
    exact (sortOn_perm _ _).map _
  · rw [← h.names]
    exact h.distinctNames
  · intro entry hentry
    constructor
    · rw [Projection.document, get?_sortOn h.pathKeys]
      apply Entries.get?_of_mem h.pathKeys
      rw [hstate]
      exact List.mem_map.mpr ⟨entry, hentry, rfl⟩
    · rw [Projection.document, get?_sortOn h.distinctNames]
      exact h.request entry hentry
    · rw [Projection.document, get?_sortOn h.distinctNames]
      exact h.response entry hentry

theorem losesNoHandler_of_paths (h : (registry.definitions.map (pathOf invokeBase)).Nodup) :
    LosesNoHandler jsonSchema invokeBase title version registry := by
  obtain ⟨entries, state, hfold, hentries, hemitted⟩ :=
    (@emitted_start τ jsonSchema invokeBase).foldlM
      (sortOn (fun definition => toLex definition.key) registry.definitions)
  rw [List.nil_append] at hemitted
  refine ⟨state.document title version, entries, ?_, hemitted.projects ?_ h⟩
  · unfold openapiDocument
    dsimp only
    rw [hfold]
    rfl
  · rw [hentries]
    exact sortOn_perm _ _

-- The topic, and behind a slash the version where there is one.
def fullTopic (definition : HandlerTypes τ) : Str :=
  if definition.version = [] then definition.topic else definition.topic ++ slash :: definition.version

omit [UnicodeData] in
theorem nodup_pathOf_iff (definitions : List (HandlerTypes τ)) :
    (definitions.map (pathOf invokeBase)).Nodup ↔ (definitions.map fullTopic).Nodup := by
  have hpath : ∀ definition : HandlerTypes τ,
      pathOf invokeBase definition = invokeBase ++ slash :: fullTopic definition := by
    intro definition
    unfold pathOf fullTopic
    split
    · rfl
    · rw [List.append_assoc, List.cons_append]
  have hmap : definitions.map (pathOf invokeBase) =
      (definitions.map fullTopic).map fun topic => invokeBase ++ slash :: topic := by
    rw [List.map_map]
    exact List.map_congr_left fun definition _ => hpath definition
  rw [hmap]
  apply List.nodup_map_iff
  intro a b hab
  exact (List.cons.inj (List.append_cancel_left hab)).2

-- No handler is lost just where no topic with its version reads as another one.
theorem openapiDocument_loses_iff : LosesNoHandler jsonSchema invokeBase title version registry ↔
    (registry.definitions.map fullTopic).Nodup := by
  rw [← @nodup_pathOf_iff τ invokeBase]
  exact ⟨paths_of_losesNoHandler, losesNoHandler_of_paths⟩

end Projection

section Collision

-- A topic with a slash, and a topic with a version.
def slashed : Registry Unit where
  definitions := [⟨"orders/v2", [], (), ()⟩, ⟨"orders", "v2", (), ()⟩]
  distinct := by decide

theorem slashed_loses :
    letI := UnicodeData.ascii
    ¬LosesNoHandler (fun _ => .obj []) "/benzene/invoke" "Benzene service" "1.0.0" slashed := by
  let _ := UnicodeData.ascii
  intro h
  exact absurd (paths_of_losesNoHandler h) (by decide)

end Collision

end Benzene.OpenApi
