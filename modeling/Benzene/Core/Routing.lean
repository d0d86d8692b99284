import Benzene.Core.Mapping
import Benzene.Results.Result

namespace Benzene.Core

open Benzene.Data Benzene.Results

section Pipeline

-- One invocation's context. The topic and the version are what the envelope had.
structure Context where
  topic : Json
  request : Json
  headers : Fields
  version : Json
  result : Option (Result Value) := none
  ignoreUnmatchedTopic : Bool := false

-- A computation on the context and on the rest of the world, `σ`: the state of
-- handlers, middlewares and clocks.
abbrev Step (σ : Type) : Type → Type := Py PyError (Context × σ)

-- A middleware gets the rest of the pipeline as `next`.
abbrev Middleware (σ : Type) := Step σ Unit → Step σ Unit

variable {σ : Type}

-- The first middleware is the outermost one.
def runPipeline : List (Middleware σ) → Step σ Unit
  | [] => pure ()
  | middleware :: rest => middleware (runPipeline rest)

def setResult (result : Result Value) : Step σ Unit :=
  Py.modify fun state => ({ state.1 with result := some result }, state.2)

-- A computation on the world alone.
def inWorld {α : Type} (x : Py PyError σ α) : Step σ α := fun state =>
  match x state.2 with
  | (outcome, world) => (outcome, (state.1, world))

end Pipeline

section Registry

structure HandlerDefinition (σ τ : Type) where
  topic : Str
  handler : Request τ → Py PyError σ (Result Value)
  version : Str := []
  requestType : Option (RequestType τ) := none
  isDefault : Bool := false

-- Each topic and version has at most one handler.
structure Registry (σ τ : Type) where
  byKey : Dict (Str × Str) (HandlerDefinition σ τ)

namespace Registry

variable {σ τ : Type} (registry : Registry σ τ)

def definitions : List (HandlerDefinition σ τ) := registry.byKey.values

-- The handlers of a topic, in the order of their registration.
def versionsOf (topic : Json) : List (HandlerDefinition σ τ) :=
  registry.definitions.filter fun definition => .str definition.topic = topic

-- A lookup hashes the pair, which raises where one of the two cannot be hashed.
def find (topic version : Json) : Except PyError (Option (HandlerDefinition σ τ)) :=
  if !topic.hashable || !version.hashable then .error ⟨.typeError, []⟩
  else match topic, version with
    | .str topic, .str version => .ok (registry.byKey.get? (topic, version))
    | _, _ => .ok none

-- The unversioned handler of the topic, else the one declared its default.
def defaultFor (topic : Json) : Except PyError (Option (HandlerDefinition σ τ)) := do
  match ← registry.find topic (.str []) with
  | some unversioned => return some unversioned
  | none => return (registry.versionsOf topic).find? HandlerDefinition.isDefault

end Registry

-- No version selects the default handler, another one its own handler only.
def exactVersion {σ τ : Type} (registry : Registry σ τ) (topic version : Json) :
    Except PyError (Option (HandlerDefinition σ τ)) :=
  if version.truthy then registry.find topic version else registry.defaultFor topic

end Registry

def pingTopic : Str := "benzene:ping"

section Lookup

variable {σ τ : Type}

-- A lookup answers for every key that can be hashed, with a registered handler.
theorem find_of_hashable (registry : Registry σ τ) {topic version : Json} (ht : topic.hashable = true)
    (hv : version.hashable = true) : ∃ found, registry.find topic version = .ok found ∧
      ∀ definition, found = some definition → definition ∈ registry.definitions := by
  simp only [Registry.find, ht, hv, Bool.not_true, Bool.or_self, Bool.false_eq_true, if_false]
  split
  · exact ⟨_, rfl, fun definition hd => Dict.mem_values_of_get? hd⟩
  · exact ⟨none, rfl, fun definition hd => by cases hd⟩

theorem exactVersion_of_hashable (registry : Registry σ τ) {topic version : Json}
    (ht : topic.hashable = true) (hv : version.truthy = true → version.hashable = true) :
    ∃ found, exactVersion registry topic version = .ok found ∧
      ∀ definition, found = some definition → definition ∈ registry.definitions := by
  unfold exactVersion
  by_cases hd : version.truthy = true
  · rw [if_pos hd]
    exact find_of_hashable registry ht (hv hd)
  · rw [if_neg hd]
    obtain ⟨found, hf, hmem⟩ := find_of_hashable registry ht (rfl : Json.hashable (.str []) = true)
    unfold Registry.defaultFor
    rw [hf]
    cases found with
    | some definition => exact ⟨some definition, rfl, hmem⟩
    | none =>
        refine ⟨(registry.versionsOf topic).find? HandlerDefinition.isDefault, rfl, ?_⟩
        intro definition hdef
        exact (List.mem_filter.mp (List.mem_of_find?_eq_some hdef)).1

theorem exactVersion_unhashable (registry : Registry σ τ) {topic version : Json}
    (h : ¬ (topic.hashable = true ∧ (version.truthy = true → version.hashable = true))) :
    exactVersion registry topic version = .error ⟨.typeError, []⟩ := by
  unfold exactVersion Registry.defaultFor Registry.find
  by_cases ht : topic.hashable = true
  · have hv : ¬ (version.truthy = true → version.hashable = true) := fun hv => h ⟨ht, hv⟩
    rw [Classical.not_imp] at hv
    simp [hv.1, hv.2]
  · by_cases hv : version.truthy = true
    · simp [hv, ht]
    · simp only [hv, ht]
      rfl

-- A topic and a version that the router can look up, or need not.
def Routable (topic version : Json) : Prop :=
  topic.truthy = true → topic ≠ .str pingTopic →
    topic.hashable = true ∧ (version.truthy = true → version.hashable = true)

end Lookup

section Router

variable [UnicodeData] {σ τ : Type}

def noHandler (registry : Registry σ τ) (topic version : Json) : Str :=
  let served := (registry.versionsOf topic).map HandlerDefinition.version
  if served = [] then ("No handler found for topic " : Str) ++ topic.repr
  else
    let listed := Str.join ", " (served.map fun v => if v = [] then ("unversioned" : Str) else Str.repr v)
    if version.truthy then
      ("No handler found for topic " : Str) ++ topic.repr ++ (" at version " : Str) ++ version.repr ++
        (" (it serves " : Str) ++ listed ++ (")" : Str)
    else
      ("No default handler for topic " : Str) ++ topic.repr ++
        (": the message carries no version and every handler is versioned (" : Str) ++ listed ++
        ("), none declared default" : Str)

def unmapped (definition : HandlerDefinition σ τ) (error : PyError) : Result Value :=
  let name := match definition.requestType with
    | some requestType => requestType.name
    | none => "the request type"
  Result.badRequest (("Could not map request to " : Str) ++ name ++ (": " : Str) ++ error.message)

-- The handler runs on the mapped request. What either raises below `Exception`
-- becomes a result.
def runHandler (definition : HandlerDefinition σ τ) (data : Json) : Py PyError σ (Result Value) :=
  match toRequest definition.requestType data with
  | .error error => if error.isException then pure (unmapped definition error) else Py.throw error
  | .ok request =>
      Py.tryCatch (definition.handler request) fun error =>
        if error.isException then pure (Result.serviceUnavailable error.message) else Py.throw error

-- The terminal middleware: it never calls `next`.
def messageRouter (registry : Registry σ τ) : Middleware σ := fun _ => do
  let (context, _) ← Py.get
  if !context.topic.truthy then setResult (Result.validationError "Topic is required")
  else if context.topic = .str pingTopic then setResult (Result.ok none)
  else
    match ← Py.lift (exactVersion registry context.topic context.version) with
    | none =>
        if context.ignoreUnmatchedTopic ∧ registry.versionsOf context.topic = [] then
          setResult (Result.ignored none)
        else setResult (Result.notFound (noHandler registry context.topic context.version))
    | some definition =>
        let result ← inWorld (runHandler definition context.request)
        setResult result

end Router

end Benzene.Core
