import Benzene.Data.BreadthFirst
import Benzene.Data.Dict
import Benzene.Data.Py

namespace Benzene.Core

open Benzene.Data Benzene.Data.BreadthFirst

section Casters

-- One step: a payload of one type as a payload of the next.
abbrev Cast (β σ : Type) := β → Py PyError σ β

-- What Python says of payloads and their types.
structure PayloadTypes (κ β : Type) where
  typeOf : β → κ
  isInstance : β → κ → Bool
  name : κ → Str

-- The steps from each type, by the type they lead to.
structure SchemaCasters (κ β σ : Type) where
  edges : Dict κ (Dict κ (Cast β σ))

def noCastPathError (message : Str) : PyError := ⟨.exception "NoCastPathError", message⟩

variable {κ β σ : Type} [DecidableEq κ]

namespace SchemaCasters

def empty : SchemaCasters κ β σ := ⟨Dict.empty⟩

-- A pair that is registered again has the new step.
def castBetween (casters : SchemaCasters κ β σ) (fromType toType : κ) (cast : Cast β σ) : SchemaCasters κ β σ :=
  ⟨casters.edges.set fromType (((casters.edges.get? fromType).getD Dict.empty).set toType cast)⟩

def stepsFrom (casters : SchemaCasters κ β σ) (node : κ) : List (κ × Cast β σ) :=
  ((casters.edges.get? node).getD Dict.empty).entries

-- Every type that a step leads to.
def reached (casters : SchemaCasters κ β σ) : List κ := casters.edges.values.flatMap Dict.keys

theorem mem_reached (casters : SchemaCasters κ β σ) {node : κ} {edge : κ × Cast β σ}
    (h : edge ∈ casters.stepsFrom node) : edge.1 ∈ casters.reached := by
  unfold stepsFrom at h
  cases hget : casters.edges.get? node with
  | none =>
      rw [hget] at h
      cases h
  | some steps =>
      rw [hget] at h
      exact List.mem_flatMap.mpr ⟨steps, Dict.mem_values_of_get? hget, List.mem_map_of_mem h⟩

theorem path_terminates (casters : SchemaCasters κ β σ) (fromType toType : κ) :
    (search casters.stepsFrom toType (casters.reached.length + 2) (start fromType)).isSome = true := by
  rw [Option.isSome_iff_exists]
  refine search_start_terminates (fun node edge hedge => List.mem_toFinset.mpr (casters.mem_reached hedge)) ?_
  have hcard := List.toFinset_card_le casters.reached
  omega

-- `_path`.
def path (casters : SchemaCasters κ β σ) (fromType toType : κ) : Option (List (Cast β σ)) :=
  if fromType = toType then some []
  else (search casters.stepsFrom toType (casters.reached.length + 2) (start fromType)).get
    (casters.path_terminates fromType toType)

def noCastPath (types : PayloadTypes κ β) (value : β) (toType : κ) : Str :=
  ("No cast path from " : Str) ++ types.name (types.typeOf value) ++ (" to " : Str) ++ types.name toType ++
    ((". Register the missing step with casters.cast_between(...) — steps compose, so you usually only need a cast " ++
      "from the immediately preceding version." : String) : Str)

-- The steps in turn, each on what the one before returned.
def applySteps (steps : List (Cast β σ)) (value : β) : Py PyError σ β :=
  steps.foldlM (fun value step => step value) value

def cast (casters : SchemaCasters κ β σ) (types : PayloadTypes κ β) (value : β) (toType : κ) : Py PyError σ β :=
  if types.isInstance value toType then pure value
  else match casters.path (types.typeOf value) toType with
    | some chain => applySteps chain value
    | none => Py.throw (noCastPathError (noCastPath types value toType))

end SchemaCasters

end Casters

section Registered

variable {κ β σ : Type} [DecidableEq κ]

-- One call of `cast_between`.
structure Registered (κ β σ : Type) where
  fromType : κ
  toType : κ
  cast : Cast β σ

def SchemaCasters.register (registrations : List (Registered κ β σ)) : SchemaCasters κ β σ :=
  registrations.foldl (fun casters registered =>
    casters.castBetween registered.fromType registered.toType registered.cast) .empty

-- The step between two types, which is the one registered last.
def stepBetween (registrations : List (Registered κ β σ)) (fromType toType : κ) : Option (Cast β σ) :=
  (registrations.reverse.find? fun registered =>
    registered.fromType = fromType ∧ registered.toType = toType).map Registered.cast

-- A registered step from one type to another.
def IsStep (registrations : List (Registered κ β σ)) (fromType toType : κ) (cast : Cast β σ) : Prop :=
  stepBetween registrations fromType toType = some cast

theorem get?_castBetween (casters : SchemaCasters κ β σ) (fromType toType node next : κ) (cast : Cast β σ) :
    (((casters.castBetween fromType toType cast).edges.get? node).getD Dict.empty).get? next =
      if fromType = node ∧ toType = next then some cast
      else ((casters.edges.get? node).getD Dict.empty).get? next := by
  unfold SchemaCasters.castBetween
  rw [Dict.get?_set]
  by_cases hfrom : fromType = node
  · subst hfrom
    rw [if_pos rfl, Option.getD_some, Dict.get?_set]
    simp only [true_and]
  · rw [if_neg hfrom, if_neg fun h => hfrom h.1]

theorem get?_register (registrations : List (Registered κ β σ)) (node next : κ) :
    (((SchemaCasters.register registrations).edges.get? node).getD Dict.empty).get? next =
      stepBetween registrations node next := by
  induction registrations using List.reverseRecOn with
  | nil => rfl
  | append_singleton registrations registered ih =>
      have hlast : SchemaCasters.register (registrations ++ [registered]) =
          (SchemaCasters.register registrations).castBetween registered.fromType registered.toType registered.cast :=
        List.foldl_append
      rw [hlast, get?_castBetween, ih, stepBetween, stepBetween, List.reverse_append, List.reverse_singleton,
        List.singleton_append, List.find?_cons]
      by_cases hpair : registered.fromType = node ∧ registered.toType = next
      · rw [if_pos hpair, decide_eq_true hpair]
        rfl
      · rw [if_neg hpair, decide_eq_false hpair]

-- The search follows exactly the registered steps.
theorem listed_iff (registrations : List (Registered κ β σ)) :
    Listed (SchemaCasters.register registrations).stepsFrom = IsStep registrations := by
  funext node next cast
  rw [IsStep, ← get?_register, ← Dict.mem_entries_iff]
  rfl

theorem path_spec (registrations : List (Registered κ β σ)) (fromType toType : κ) :
    Answers (IsStep registrations) fromType toType ((SchemaCasters.register registrations).path fromType toType) := by
  unfold SchemaCasters.path
  by_cases hsame : fromType = toType
  · subst hsame
    rw [if_pos rfl]
    exact ⟨.nil, fun other _ => Nat.zero_le _⟩
  · rw [if_neg hsame]
    have hspec := search_spec (frontier_start hsame)
      (Option.some_get ((SchemaCasters.register registrations).path_terminates fromType toType)).symm
    rw [listed_iff] at hspec
    exact hspec

-- A direct step is the whole chain.
theorem shortest_direct {registrations : List (Registered κ β σ)} {fromType toType : κ} (hne : fromType ≠ toType)
    {cast : Cast β σ} (hstep : IsStep registrations fromType toType cast) {chain : List (Cast β σ)}
    (h : Shortest (IsStep registrations) fromType toType chain) : chain = [cast] := by
  obtain ⟨hchain, hleast⟩ := h
  have hdirect : Chain (IsStep registrations) fromType [cast] toType := .snoc .nil hstep
  have hlength := hleast [cast] hdirect
  cases hchain with
  | nil => exact absurd rfl hne
  | @snoc labels node _ label hbefore hedge =>
      have hnil : labels.length = 0 := by
        simp only [List.length_append, List.length_singleton] at hlength
        omega
      have hnode := hbefore.eq_source hnil
      rw [hnode] at hedge
      rw [List.length_eq_zero_iff.mp hnil, Option.some.inj (hedge.symm.trans hstep)]
      rfl

end Registered

section Casting

variable {κ β σ : Type} [DecidableEq κ]

theorem applySteps_singleton (step : Cast β σ) (value : β) : SchemaCasters.applySteps [step] value = step value := by
  funext s
  simp only [SchemaCasters.applySteps, List.foldlM_cons, List.foldlM_nil, Py.bind_apply]
  cases step value s with
  | mk outcome after => cases outcome <;> rfl

-- What `cast` does with a value and a target type: nothing, raise, or apply the
-- steps of a shortest chain, which is the direct step where there is one.
structure Casts (registrations : List (Registered κ β σ)) (types : PayloadTypes κ β) (value : β) (toType : κ)
    (outcome : Py PyError σ β) : Prop where
  untouched : types.isInstance value toType = true → outcome = pure value
  raised : types.isInstance value toType = false →
    (∀ chain, ¬Chain (IsStep registrations) (types.typeOf value) chain toType) →
      outcome = Py.throw (noCastPathError (SchemaCasters.noCastPath types value toType))
  applied : types.isInstance value toType = false →
    (∃ chain, Chain (IsStep registrations) (types.typeOf value) chain toType) →
      ∃ chain, Shortest (IsStep registrations) (types.typeOf value) toType chain ∧
        outcome = SchemaCasters.applySteps chain value
  direct : types.isInstance value toType = false → types.typeOf value ≠ toType → ∀ step,
    IsStep registrations (types.typeOf value) toType step → outcome = step value

theorem cast_shortest (registrations : List (Registered κ β σ)) (types : PayloadTypes κ β) (value : β) (toType : κ) :
    Casts registrations types value toType ((SchemaCasters.register registrations).cast types value toType) := by
  have hspec := path_spec registrations (types.typeOf value) toType
  unfold SchemaCasters.cast
  cases hinstance : types.isInstance value toType with
  | true => exact ⟨fun _ => rfl, by simp [hinstance], by simp [hinstance], by simp [hinstance]⟩
  | false =>
      cases hpath : (SchemaCasters.register registrations).path (types.typeOf value) toType with
      | none =>
          rw [hpath] at hspec
          refine ⟨by simp [hinstance], fun _ _ => rfl, fun _ ⟨chain, hchain⟩ => absurd hchain (hspec chain), ?_⟩
          intro _ _ step hstep
          exact absurd (.snoc .nil hstep) (hspec [step])
      | some chain =>
          rw [hpath] at hspec
          refine ⟨by simp [hinstance], fun _ hnone => absurd hspec.1 (hnone chain), fun _ _ => ⟨chain, hspec, rfl⟩, ?_⟩
          intro _ hne step hstep
          rw [shortest_direct hne hstep hspec]
          exact applySteps_singleton step value

end Casting

end Benzene.Core
