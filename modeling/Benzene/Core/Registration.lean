import Benzene.Core.Routing

namespace Benzene.Core

open Benzene.Data

section Key

variable {σ τ : Type}

-- What a handler is registered under.
def HandlerDefinition.key (definition : HandlerDefinition σ τ) : Str × Str :=
  (definition.topic, definition.version)

-- Every definition is held under its own key.
def Keyed (definitions : Dict (Str × Str) (HandlerDefinition σ τ)) : Prop :=
  ∀ entry ∈ definitions.entries, entry.1 = entry.2.key

theorem keyed_empty : Keyed (Dict.empty : Dict (Str × Str) (HandlerDefinition σ τ)) := by
  intro entry h
  cases h

theorem Keyed.set {definitions : Dict (Str × Str) (HandlerDefinition σ τ)} (h : Keyed definitions)
    (definition : HandlerDefinition σ τ) : Keyed (definitions.set definition.key definition) := by
  intro entry he
  cases Entries.mem_set he with
  | inl heq =>
      subst heq
      rfl
  | inr hmem => exact h entry hmem

theorem Keyed.entries_eq {definitions : Dict (Str × Str) (HandlerDefinition σ τ)} (h : Keyed definitions) :
    definitions.values.map (fun definition => (definition.key, definition)) = definitions.entries := by
  unfold Dict.values
  rw [List.map_map]
  refine (List.map_congr_left fun entry he => ?_).trans (List.map_id _)
  rw [Function.comp_apply, ← h entry he]
  rfl

end Key

section Registration

variable [UnicodeData] {σ τ : Type}

-- `_describe`.
def describe (definition : HandlerDefinition σ τ) : Str :=
  if definition.version = [] then "the unversioned handler"
  else ("version " : Str) ++ Str.repr definition.version

def alreadyRegistered (definition : HandlerDefinition σ τ) : Str :=
  ("A handler is already registered for topic " : Str) ++ Str.repr definition.topic ++
    (if definition.version = [] then (" (unversioned)" : Str)
      else (" version " : Str) ++ Str.repr definition.version) ++
    ((". Each (topic, version) pair maps to exactly one handler — remove the duplicate registration, or " ++
      "give one handler a distinct version." : String) : Str)

def secondDefault (declared definition : HandlerDefinition σ τ) : Str :=
  ("Topic " : Str) ++ Str.repr definition.topic ++ (" already declares " : Str) ++ describe declared ++
    (" its default handler, so " : Str) ++ describe definition ++
    ((" cannot be declared default too: a message with no version goes to exactly one handler. Keep " ++
      "default=True on one of them." : String) : Str)

def duplicateHandlerError (message : Str) : PyError := ⟨.exception "DuplicateHandlerError", message⟩

namespace Registry

def empty : Registry σ τ := ⟨Dict.empty⟩

def addDefinition (registry : Registry σ τ) (definition : HandlerDefinition σ τ) :
    Except PyError (Registry σ τ) :=
  if (registry.byKey.get? definition.key).isSome then
    .error (duplicateHandlerError (alreadyRegistered definition))
  else
    match (registry.versionsOf (.str definition.topic)).find? HandlerDefinition.isDefault with
    | some declared =>
        if definition.isDefault then .error (duplicateHandlerError (secondDefault declared definition))
        else .ok ⟨registry.byKey.set definition.key definition⟩
    | none => .ok ⟨registry.byKey.set definition.key definition⟩

-- Each source enumerates its definitions.
def fromDefinitions (sources : List (List (HandlerDefinition σ τ))) : Except PyError (Registry σ τ) :=
  sources.foldlM (fun registry source => source.foldlM addDefinition registry) empty

theorem addDefinition_eq_ok {registry registry' : Registry σ τ} {definition : HandlerDefinition σ τ}
    (h : registry.addDefinition definition = .ok registry') :
    registry.byKey.get? definition.key = none ∧
      registry' = ⟨registry.byKey.set definition.key definition⟩ := by
  unfold addDefinition at h
  cases hget : registry.byKey.get? definition.key with
  | some other =>
      rw [hget] at h
      cases h
  | none =>
      rw [hget] at h
      simp only [Option.isSome_none, Bool.false_eq_true, if_false] at h
      refine ⟨rfl, ?_⟩
      cases hdeclared : (registry.versionsOf (.str definition.topic)).find? HandlerDefinition.isDefault with
      | none =>
          rw [hdeclared] at h
          exact (Except.ok.inj h).symm
      | some declared =>
          rw [hdeclared] at h
          by_cases hd : definition.isDefault = true
          · simp only [hd, if_true] at h
            cases h
          · simp only [hd] at h
            exact (Except.ok.inj h).symm

end Registry

end Registration

section Selection

variable {σ τ : Type}

end Selection

end Benzene.Core
