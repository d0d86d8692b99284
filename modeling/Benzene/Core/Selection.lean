import Benzene.Core.Registration

namespace Benzene.Core

open Benzene.Data Benzene.Results

section Calls

variable {σ τ : Type}

-- What `@message` puts on a function.
structure MessageTag (τ : Type) where
  topic : Str
  version : Str := []
  requestType : Option (RequestType τ) := none
  isDefault : Bool := false

-- A handler as the application wrote it. `inferred` is what `infer_request_type`
-- reads off its first annotation.
structure HandlerFunction (σ τ : Type) where
  name : Str
  handle : Request τ → Py PyError σ (Result Value)
  inferred : Option (RequestType τ) := none
  tag : Option (MessageTag τ) := none

def message (topic version : Str) (requestType : Option (RequestType τ)) (default : Bool)
    (fn : HandlerFunction σ τ) : HandlerFunction σ τ :=
  { fn with tag := some ⟨topic, version, requestType.or fn.inferred, default⟩ }

def definitionOf (fn : HandlerFunction σ τ) : Option (HandlerDefinition σ τ) :=
  fn.tag.map fun tag => ⟨tag.topic, fn.handle, tag.version, tag.requestType, tag.isDefault⟩

-- The three ways to register a handler.
inductive RegistryCall (σ τ : Type)
  | register (topic : Str) (handler : HandlerFunction σ τ) (version : Str)
      (requestType : Option (RequestType τ)) (default : Bool)
  | add (fn : HandlerFunction σ τ)
  | addDefinition (definition : HandlerDefinition σ τ)

end Calls

section Registering

variable [UnicodeData] {σ τ : Type}

def notTagged (fn : HandlerFunction σ τ) : PyError :=
  ⟨.valueError, Str.repr fn.name ++
    (" is not a @message-tagged handler; use register(topic, fn) for explicit registration." : Str)⟩

-- The definition a call is about to add.
def RegistryCall.definition : RegistryCall σ τ → Except PyError (HandlerDefinition σ τ)
  | .register topic handler version requestType default =>
      .ok ⟨topic, handler.handle, version, requestType.or handler.inferred, default⟩
  | .add fn => match definitionOf fn with
      | some definition => .ok definition
      | none => .error (notTagged fn)
  | .addDefinition definition => .ok definition

namespace Registry

-- `add_definition` on the registry itself: both rules are checked before it writes.
def addInPlace (definition : HandlerDefinition σ τ) : Py PyError (Registry σ τ) Unit := do
  let registry ← Py.get
  if (registry.byKey.get? definition.key).isSome then
    Py.throw (duplicateHandlerError (alreadyRegistered definition))
  else
    match (registry.versionsOf (.str definition.topic)).find? HandlerDefinition.isDefault with
    | some declared =>
        if definition.isDefault then
          Py.throw (duplicateHandlerError (secondDefault declared definition))
        else Py.modify fun registry => ⟨registry.byKey.set definition.key definition⟩
    | none => Py.modify fun registry => ⟨registry.byKey.set definition.key definition⟩

def perform (call : RegistryCall σ τ) : Py PyError (Registry σ τ) Unit := do
  let definition ← Py.lift call.definition
  addInPlace definition

-- The registry after a sequence of calls, each of which may have been rejected.
def after (calls : List (RegistryCall σ τ)) : Registry σ τ :=
  calls.foldl (fun registry call => (perform call registry).2) empty

-- What adding in place does is what `addDefinition` returns.
theorem addInPlace_eq (registry : Registry σ τ) (definition : HandlerDefinition σ τ) :
    addInPlace definition registry = match registry.addDefinition definition with
      | .ok next => (.ok (), next)
      | .error error => (.error error, registry) := by
  unfold addInPlace addDefinition
  rw [Py.bind_ok (Py.get_apply registry)]
  cases (registry.byKey.get? definition.key).isSome with
  | true => rfl
  | false =>
      cases (registry.versionsOf (.str definition.topic)).find? HandlerDefinition.isDefault with
      | none => rfl
      | some declared => cases hdefault : definition.isDefault <;> rfl

end Registry

end Registering

section Invariant

variable {σ τ : Type}

namespace Registry

-- One handler a topic and version, and one declared default a topic.
structure Unambiguous (registry : Registry σ τ) : Prop where
  keyed : Keyed registry.byKey
  defaults : ((registry.definitions.filter HandlerDefinition.isDefault).map HandlerDefinition.topic).Nodup

theorem unambiguous_empty : (empty : Registry σ τ).Unambiguous := ⟨keyed_empty, List.nodup_nil⟩

namespace Unambiguous

variable {registry : Registry σ τ} (h : registry.Unambiguous)
include h

theorem keys_eq : registry.definitions.map HandlerDefinition.key = registry.byKey.keys := by
  rw [Dict.keys, ← h.keyed.entries_eq, Entries.keys, List.map_map]
  rfl

-- One handler a key.
theorem nodup_keys : (registry.definitions.map HandlerDefinition.key).Nodup := by
  rw [h.keys_eq]
  exact registry.byKey.nodup

theorem get?_eq_some {topic version : Str} {definition : HandlerDefinition σ τ} :
    registry.byKey.get? (topic, version) = some definition ↔
      definition ∈ registry.definitions ∧ definition.topic = topic ∧ definition.version = version := by
  constructor
  · intro hget
    have hentry := h.keyed _ ((Dict.mem_entries_iff _ _ _).mpr hget)
    have hkey : (topic, version) = (definition.topic, definition.version) := hentry
    cases hkey
    exact ⟨Dict.mem_values_of_get? hget, rfl, rfl⟩
  · rintro ⟨hmem, rfl, rfl⟩
    obtain ⟨entry, hentry, rfl⟩ := List.mem_map.mp hmem
    rw [← Dict.mem_entries_iff]
    have hkey : entry.1 = (entry.2.topic, entry.2.version) := h.keyed entry hentry
    rw [← hkey]
    exact hentry

theorem get?_eq_none {topic version : Str} :
    registry.byKey.get? (topic, version) = none ↔
      ∀ definition ∈ registry.definitions, definition.topic = topic → definition.version ≠ version := by
  constructor
  · intro hnone definition hmem htopic hversion
    rw [h.get?_eq_some.mpr ⟨hmem, htopic, hversion⟩] at hnone
    cases hnone
  · intro hno
    cases hget : registry.byKey.get? (topic, version) with
    | none => rfl
    | some definition =>
        obtain ⟨hmem, htopic, hversion⟩ := h.get?_eq_some.mp hget
        exact absurd hversion (hno definition hmem htopic)

-- The declared default of a topic.
theorem declared_eq_some {topic : Str} {definition : HandlerDefinition σ τ} :
    (registry.versionsOf (.str topic)).find? HandlerDefinition.isDefault = some definition ↔
      definition ∈ registry.definitions ∧ definition.topic = topic ∧ definition.isDefault = true := by
  constructor
  · intro hfind
    obtain ⟨hmem, htopic⟩ := List.mem_filter.mp (List.mem_of_find?_eq_some hfind)
    exact ⟨hmem, Json.str.inj (of_decide_eq_true htopic), List.find?_some hfind⟩
  · rintro ⟨hmem, rfl, hdefault⟩
    cases hfind : (registry.versionsOf (.str definition.topic)).find? HandlerDefinition.isDefault with
    | none =>
        have hno := List.find?_eq_none.mp hfind definition (List.mem_filter.mpr ⟨hmem, by simp⟩)
        exact absurd hdefault hno
    | some found =>
        obtain ⟨hfound, htopic⟩ := List.mem_filter.mp (List.mem_of_find?_eq_some hfind)
        have hsame := List.inj_on_of_nodup_map h.defaults
          (List.mem_filter.mpr ⟨hfound, List.find?_some hfind⟩) (List.mem_filter.mpr ⟨hmem, hdefault⟩)
          (Json.str.inj (of_decide_eq_true htopic))
        rw [hsame]

theorem declared_eq_none {topic : Str} :
    (registry.versionsOf (.str topic)).find? HandlerDefinition.isDefault = none ↔
      ∀ definition ∈ registry.definitions, definition.topic = topic → definition.isDefault = false := by
  constructor
  · intro hnone definition hmem htopic
    cases hdefault : definition.isDefault with
    | false => rfl
    | true =>
        rw [h.declared_eq_some.mpr ⟨hmem, htopic, hdefault⟩] at hnone
        cases hnone
  · intro hno
    cases hfind : (registry.versionsOf (.str topic)).find? HandlerDefinition.isDefault with
    | none => rfl
    | some definition =>
        obtain ⟨hmem, htopic, hdefault⟩ := h.declared_eq_some.mp hfind
        rw [hno definition hmem htopic] at hdefault
        cases hdefault

end Unambiguous

end Registry

end Invariant

section Answers

variable {σ τ : Type}

-- The handler a topic's message is for: the one of the version it names, and
-- without a version the unversioned one, else the declared default.
inductive Selects (definitions : List (HandlerDefinition σ τ)) (topic : Str) :
    Str → Option (HandlerDefinition σ τ) → Prop
  | named {version : Str} {definition : HandlerDefinition σ τ} (asked : version ≠ [])
      (registered : definition ∈ definitions) (same : definition.topic = topic)
      (exact : definition.version = version) : Selects definitions topic version (some definition)
  | missing {version : Str} (asked : version ≠ [])
      (no : ∀ definition ∈ definitions, definition.topic = topic → definition.version ≠ version) :
      Selects definitions topic version none
  | unversioned {definition : HandlerDefinition σ τ} (registered : definition ∈ definitions)
      (same : definition.topic = topic) (unversioned : definition.version = []) :
      Selects definitions topic [] (some definition)
  | declared {definition : HandlerDefinition σ τ}
      (versioned : ∀ other ∈ definitions, other.topic = topic → other.version ≠ [])
      (registered : definition ∈ definitions) (same : definition.topic = topic)
      (default : definition.isDefault = true) : Selects definitions topic [] (some definition)
  | noDefault (versioned : ∀ other ∈ definitions, other.topic = topic → other.version ≠ [])
      (no : ∀ definition ∈ definitions, definition.topic = topic → definition.isDefault = false) :
      Selects definitions topic [] none

namespace Registry.Unambiguous

variable {registry : Registry σ τ} (h : registry.Unambiguous)
include h

theorem find_selects (topic : Str) {version : Str} (hversion : version ≠ []) :
    ∃ found, registry.find (.str topic) (.str version) = .ok found ∧
      Selects registry.definitions topic version found := by
  refine ⟨registry.byKey.get? (topic, version), by simp [Registry.find, Json.hashable], ?_⟩
  cases hget : registry.byKey.get? (topic, version) with
  | none => exact .missing hversion (h.get?_eq_none.mp hget)
  | some definition =>
      obtain ⟨hmem, htopic, hsame⟩ := h.get?_eq_some.mp hget
      exact .named hversion hmem htopic hsame

theorem defaultFor_selects (topic : Str) :
    ∃ found, registry.defaultFor (.str topic) = .ok found ∧ Selects registry.definitions topic [] found := by
  have hfind : registry.find (.str topic) (.str []) = .ok (registry.byKey.get? (topic, [])) := by
    simp [Registry.find, Json.hashable]
  unfold defaultFor
  rw [hfind]
  cases hget : registry.byKey.get? (topic, []) with
  | some definition =>
      obtain ⟨hmem, htopic, hunversioned⟩ := h.get?_eq_some.mp hget
      exact ⟨some definition, rfl, .unversioned hmem htopic hunversioned⟩
  | none =>
      refine ⟨(registry.versionsOf (.str topic)).find? HandlerDefinition.isDefault, rfl, ?_⟩
      have hversioned := h.get?_eq_none.mp hget
      cases hdeclared : (registry.versionsOf (.str topic)).find? HandlerDefinition.isDefault with
      | none => exact .noDefault hversioned (h.declared_eq_none.mp hdeclared)
      | some definition =>
          obtain ⟨hmem, htopic, hdefault⟩ := h.declared_eq_some.mp hdeclared
          exact .declared hversioned hmem htopic hdefault

theorem exactVersion_selects (topic version : Str) :
    ∃ found, exactVersion registry (.str topic) (.str version) = .ok found ∧
      Selects registry.definitions topic version found := by
  unfold exactVersion
  by_cases hversion : version = []
  · subst hversion
    exact h.defaultFor_selects topic
  · rw [if_pos (by simp [Json.truthy, hversion])]
    exact h.find_selects topic hversion

end Registry.Unambiguous

end Answers

section Runs

variable [UnicodeData] {σ τ : Type}

namespace Registry

-- Both rules hold of what is added, which comes last.
theorem definitions_addDefinition {registry next : Registry σ τ} {definition : HandlerDefinition σ τ}
    (h : registry.addDefinition definition = .ok next) :
    next.definitions = registry.definitions ++ [definition] := by
  obtain ⟨hnone, rfl⟩ := addDefinition_eq_ok h
  have hset : (registry.byKey.set definition.key definition).entries =
      registry.byKey.entries ++ [(definition.key, definition)] :=
    Entries.set_eq_append ((Entries.get?_eq_none_iff _ _).mp hnone)
  unfold definitions Dict.values
  rw [hset, List.map_append]
  rfl

theorem addDefinition_declared {registry next : Registry σ τ} {definition : HandlerDefinition σ τ}
    (h : registry.addDefinition definition = .ok next) (hdefault : definition.isDefault = true) :
    (registry.versionsOf (.str definition.topic)).find? HandlerDefinition.isDefault = none := by
  obtain ⟨hnone, -⟩ := addDefinition_eq_ok h
  unfold addDefinition at h
  rw [hnone] at h
  cases hdeclared : (registry.versionsOf (.str definition.topic)).find? HandlerDefinition.isDefault with
  | none => rfl
  | some declared =>
      simp only [hdeclared, hdefault, Option.isSome_none, Bool.false_eq_true, if_false, if_true] at h
      cases h

theorem Unambiguous.addDefinition {registry next : Registry σ τ} {definition : HandlerDefinition σ τ}
    (h : registry.Unambiguous) (hadd : registry.addDefinition definition = .ok next) : next.Unambiguous := by
  refine ⟨?_, ?_⟩
  · obtain ⟨-, rfl⟩ := addDefinition_eq_ok hadd
    exact h.keyed.set definition
  · rw [definitions_addDefinition hadd, List.filter_append, List.map_append]
    cases hdefault : definition.isDefault with
    | false =>
        rw [List.filter_cons_of_neg (by simp [hdefault]), List.filter_nil, List.map_nil, List.append_nil]
        exact h.defaults
    | true =>
        rw [List.filter_cons_of_pos hdefault, List.filter_nil, List.map_cons, List.map_nil]
        have hno := h.declared_eq_none.mp (addDefinition_declared hadd hdefault)
        refine List.nodup_append.mpr ⟨h.defaults, List.nodup_singleton _, ?_⟩
        intro topic htopic other hother
        obtain ⟨declared, hdeclared, rfl⟩ := List.mem_map.mp htopic
        obtain ⟨hmem, hisDefault⟩ := List.mem_filter.mp hdeclared
        rw [List.mem_singleton.mp hother]
        intro heq
        rw [hno declared hmem heq] at hisDefault
        cases hisDefault

-- A call is rejected and has changed nothing, or has added its definition.
theorem perform_cases (registry : Registry σ τ) (call : RegistryCall σ τ) :
    (∃ error, perform call registry = (.error error, registry)) ∨
      ∃ definition next, call.definition = .ok definition ∧ registry.addDefinition definition = .ok next ∧
        perform call registry = (.ok (), next) := by
  unfold perform
  cases hcall : call.definition with
  | error error => exact Or.inl ⟨error, rfl⟩
  | ok definition =>
      rw [Py.lift_ok_bind, addInPlace_eq]
      cases hadd : registry.addDefinition definition with
      | error error => exact Or.inl ⟨error, rfl⟩
      | ok next => exact Or.inr ⟨definition, next, rfl, hadd, rfl⟩

theorem Unambiguous.perform (call : RegistryCall σ τ) :
    Py.Preserves Registry.Unambiguous (Registry.perform call) := by
  intro registry h
  obtain ⟨error, herror⟩ | ⟨definition, next, -, hadd, hok⟩ := perform_cases registry call
  · rw [herror]
    exact h
  · rw [hok]
    exact h.addDefinition hadd

theorem unambiguous_after (calls : List (RegistryCall σ τ)) : (after calls).Unambiguous := by
  induction calls using List.reverseRecOn with
  | nil => exact unambiguous_empty
  | append_singleton calls call ih =>
      unfold after at ih ⊢
      rw [List.foldl_append]
      exact Unambiguous.perform call _ ih

end Registry

-- Whatever was called before, the next call is rejected and changes nothing or
-- adds its handler, no two handlers answer for one version or one topic's default,
-- and each message has the handler its topic and its version say.
theorem registrations_select (calls : List (RegistryCall σ τ)) :
    (∀ call, (∃ error, Registry.perform call (Registry.after calls) = (.error error, Registry.after calls)) ∨
      ∃ definition next, call.definition = .ok definition ∧
        Registry.perform call (Registry.after calls) = (.ok (), next) ∧
        next.definitions = (Registry.after calls).definitions ++ [definition]) ∧
      ((Registry.after calls).definitions.map HandlerDefinition.key).Nodup ∧
      (((Registry.after calls).definitions.filter HandlerDefinition.isDefault).map
        HandlerDefinition.topic).Nodup ∧
      ∀ topic version, ∃ found, exactVersion (Registry.after calls) (.str topic) (.str version) = .ok found ∧
        Selects (Registry.after calls).definitions topic version found := by
  have hinv := Registry.unambiguous_after calls
  refine ⟨?_, hinv.nodup_keys, hinv.defaults, hinv.exactVersion_selects⟩
  intro call
  obtain ⟨error, herror⟩ | ⟨definition, next, hcall, hadd, hok⟩ :=
    Registry.perform_cases (Registry.after calls) call
  · exact Or.inl ⟨error, herror⟩
  · exact Or.inr ⟨definition, next, hcall, hok, Registry.definitions_addDefinition hadd⟩

end Runs

end Benzene.Core
