import Benzene.Core.Mapping
import Benzene.Results.Result

namespace Benzene.Resilience

open Benzene.Data Benzene.Results Benzene.Core

section Saga

-- The working state that the steps read and write.
abbrev SagaState := Dict Str Value

variable {σ : Type}

-- One forward action and its optional compensation.
structure SagaStep (σ : Type) where
  name : Str
  action : Py PyError (SagaState × σ) (Option (Result Value))
  compensation : Option (Py PyError (SagaState × σ) Unit)

structure SagaResult where
  result : Result Value
  state : SagaState
  completed : List Str
  compensated : List Str := []
  compensationFailures : List Str := []
  failedStep : Option Str := none

-- `try: ...  except Exception as exc: ...`, with the exception as a value.
def catching {α : Type} (x : Py PyError (SagaState × σ) α) :
    Py PyError (SagaState × σ) (Except PyError α) := fun s =>
  match x s with
  | (.ok a, s') => (.ok (.ok a), s')
  | (.error error, s') => if error.isException then (.ok (.error error), s') else (.error error, s')

-- The names of the steps that were compensated, and of those whose compensation raised.
def compensateEach : List (SagaStep σ) → Py PyError (SagaState × σ) (List Str × List Str)
  | [] => return ([], [])
  | step :: rest =>
      match step.compensation with
      | none => compensateEach rest
      | some compensation => do
          let outcome ← catching compensation
          let (compensated, failures) ← compensateEach rest
          match outcome with
          | .ok _ => return (step.name :: compensated, failures)
          | .error _ => return (compensated, step.name :: failures)

def rollback (failedStep : Str) (failure : Result Value) (completed : List (SagaStep σ)) :
    Py PyError (SagaState × σ) SagaResult := do
  let (compensated, failures) ← compensateEach completed.reverse
  let (state, _) ← Py.get
  return ⟨failure, state, completed.map SagaStep.name, compensated, failures, some failedStep⟩

def raised (step : SagaStep σ) (error : PyError) : Result Value :=
  Result.failed Status.unexpectedError (step.name ++ (": " : Str) ++ error.message)

def runSteps (completed : List (SagaStep σ)) : List (SagaStep σ) → Py PyError (SagaState × σ) SagaResult
  | [] => do
      let (state, _) ← Py.get
      return { result := Result.ok (some (.dict (state.entries.map fun entry => (.str entry.1, entry.2)))),
               state, completed := completed.map SagaStep.name }
  | step :: rest => do
      match ← catching step.action with
      | .error error => rollback step.name (raised step error) completed
      | .ok (some outcome) =>
          if outcome.isSuccessful then runSteps (completed ++ [step]) rest
          else rollback step.name outcome completed
      | .ok none => runSteps (completed ++ [step]) rest

-- The steps work on a copy of the state.
def execute (steps : List (SagaStep σ)) (state : Option SagaState) : Py PyError σ SagaResult := fun world =>
  match runSteps [] steps (state.getD Dict.empty, world) with
  | (outcome, (_, world)) => (outcome, world)

end Saga

section Trace

variable {σ : Type}

-- What a run did with the step of a number: the action, with the failure it came to,
-- or the compensation, and whether it returned.
inductive SagaEvent
  | acted (number : Nat) (failure : Option (Result Value))
  | compensated (number : Nat) (returned : Bool)

def failureOf (step : SagaStep σ) : Except PyError (Option (Result Value)) → Option (Result Value)
  | .error error => some (raised step error)
  | .ok (some outcome) => if outcome.isSuccessful then none else some outcome
  | .ok none => none

-- The computation, with an event that is told from its outcome.
def logged {α : Type} (event : Except PyError α → SagaEvent) (x : Py PyError (SagaState × σ) α) :
    Py PyError (SagaState × (σ × List SagaEvent)) α := fun s =>
  match x (s.1, s.2.1) with
  | (outcome, (state, world)) => (outcome, (state, (world, s.2.2 ++ [event outcome])))

abbrev Numbered (σ : Type) := SagaStep σ × Nat

-- The step as it is, but for the events it leaves.
def traced (entry : Numbered σ) : SagaStep (σ × List SagaEvent) where
  name := entry.1.name
  action := logged (fun outcome => .acted entry.2 (failureOf entry.1 outcome)) entry.1.action
  compensation := entry.1.compensation.map (logged fun outcome => .compensated entry.2 outcome.isOk)

def SagaStep.Raises (step : SagaStep σ) (error : PyError) : Prop :=
  (∃ s, (step.action s).1 = .error error) ∨
    ∃ compensation s, step.compensation = some compensation ∧ (compensation s).1 = .error error

-- Every step was done, and nothing undone.
structure Succeeded (numbered : List (Numbered σ)) (saga : SagaResult) (log : List SagaEvent) : Prop where
  events : log = numbered.map fun entry => .acted entry.2 none
  result : saga.result =
    Result.ok (some (.dict (saga.state.entries.map fun entry => (.str entry.1, entry.2))))
  completed : saga.completed = numbered.map fun entry => entry.1.name
  compensated : saga.compensated = []
  compensationFailures : saga.compensationFailures = []
  failedStep : saga.failedStep = none

-- What was undone of some steps: each that has a compensation, and whether it returned.
structure Undone (done : List (Numbered σ)) (names : List Str × List Str) (entries : List SagaEvent)
    (undone : List (Numbered σ × Bool)) : Prop where
  steps : undone.map Prod.fst = done.filter fun entry => entry.1.compensation.isSome
  events : entries = undone.map fun entry => .compensated entry.1.2 entry.2
  compensated : names.1 = (undone.filter fun entry => entry.2).map fun entry => entry.1.1.name
  failures : names.2 = (undone.filter fun entry => !entry.2).map fun entry => entry.1.1.name

-- The steps before the failing one were done, and undone from the last to the first.
structure RolledBack (done : List (Numbered σ)) (failing : Numbered σ) (saga : SagaResult)
    (log : List SagaEvent) : Prop where
  undone : ∃ entries undone, Undone done.reverse (saga.compensated, saga.compensationFailures) entries undone ∧
    log = (done.map fun entry => .acted entry.2 none) ++ .acted failing.2 (some saga.result) :: entries
  completed : saga.completed = done.map fun entry => entry.1.name
  failedStep : saga.failedStep = some failing.1.name

end Trace

section Run

variable {σ : Type}

theorem catching_logged {α : Type} (event : Except PyError α → SagaEvent) (x : Py PyError (SagaState × σ) α)
    (state : SagaState) (world : σ) (log : List SagaEvent) :
    catching (logged event x) (state, (world, log)) =
      ((catching x (state, world)).1,
        ((catching x (state, world)).2.1, ((catching x (state, world)).2.2, log ++ [event (x (state, world)).1]))) := by
  simp only [catching, logged]
  obtain ⟨outcome, state', world'⟩ := x (state, world)
  cases outcome with
  | ok a => rfl
  | error error =>
      dsimp only
      split
      · rfl
      · rfl

theorem catching_error {α : Type} {x : Py PyError (SagaState × σ) α} {s s' : SagaState × σ} {error : PyError}
    (h : catching x s = (.error error, s')) : error.isException = false ∧ (x s).1 = .error error := by
  rw [catching] at h
  split at h
  · cases h
  · rename_i raised _ hx
    split at h
    · cases h
    · rename_i hnot
      cases h
      exact ⟨by simpa using hnot, by rw [hx]⟩

theorem catching_ok {α : Type} {x : Py PyError (SagaState × σ) α} {s s' : SagaState × σ}
    {outcome : Except PyError α} (h : catching x s = (.ok outcome, s')) : (x s).1 = outcome := by
  rw [catching] at h
  split at h
  · rename_i hx
    cases h
    rw [hx]
  · rename_i hx
    split at h
    · cases h
      rw [hx]
    · cases h

-- What the compensations leave: the names and the events, or an error that is no `Exception`.
def Compensates (done : List (Numbered σ)) (entries : List SagaEvent) :
    Except PyError (List Str × List Str) → Prop
  | .error error => error.isException = false ∧ ∃ entry ∈ done, entry.1.Raises error
  | .ok names => ∃ undone, Undone done names entries undone

theorem Compensates.skip {entry : Numbered σ} {done : List (Numbered σ)} {entries : List SagaEvent}
    {outcome : Except PyError (List Str × List Str)} (h : Compensates done entries outcome)
    (hnone : entry.1.compensation = none) : Compensates (entry :: done) entries outcome := by
  cases outcome with
  | error error =>
      obtain ⟨hnot, other, hother, hraises⟩ := h
      exact ⟨hnot, other, List.mem_cons_of_mem _ hother, hraises⟩
  | ok names =>
      obtain ⟨undone, hundone⟩ := h
      refine ⟨undone, ?_, hundone.events, hundone.compensated, hundone.failures⟩
      rw [List.filter_cons_of_neg (by simp [hnone])]
      exact hundone.steps

-- A compensation adds its step to the one list or to the other.
def addName (step : SagaStep σ) (returned : Bool) (names : List Str × List Str) : List Str × List Str :=
  if returned then (step.name :: names.1, names.2) else (names.1, step.name :: names.2)

theorem Compensates.cons {entry : Numbered σ} {done : List (Numbered σ)} {entries : List SagaEvent}
    {outcome : Except PyError (List Str × List Str)} (h : Compensates done entries outcome)
    (hsome : entry.1.compensation.isSome = true) (returned : Bool) :
    Compensates (entry :: done) (.compensated entry.2 returned :: entries)
      (outcome.map (addName entry.1 returned)) := by
  cases outcome with
  | error error =>
      obtain ⟨hnot, other, hother, hraises⟩ := h
      exact ⟨hnot, other, List.mem_cons_of_mem _ hother, hraises⟩
  | ok names =>
      obtain ⟨undone, hundone⟩ := h
      refine ⟨(entry, returned) :: undone, ?_, ?_, ?_, ?_⟩
      · rw [List.map_cons, List.filter_cons, if_pos hsome, hundone.steps]
      · rw [List.map_cons, hundone.events]
      · cases returned with
        | true => simp [addName, hundone.compensated]
        | false => simp [addName, hundone.compensated]
      · cases returned with
        | true => simp [addName, hundone.failures]
        | false => simp [addName, hundone.failures]

theorem compensateEach_cons {step : SagaStep σ} {compensation : Py PyError (SagaState × σ) Unit}
    (hcompensation : step.compensation = some compensation) (rest : List (SagaStep σ)) (s : SagaState × σ) :
    compensateEach (step :: rest) s =
      match catching compensation s with
      | (.error error, s') => (.error error, s')
      | (.ok outcome, s') =>
          ((compensateEach rest s').1.map (addName step outcome.isOk), (compensateEach rest s').2) := by
  rw [compensateEach, hcompensation]
  simp only [Py.bind_apply]
  obtain ⟨caught, s'⟩ := catching compensation s
  cases caught with
  | error error => rfl
  | ok outcome =>
      dsimp only
      obtain ⟨names, s''⟩ := compensateEach rest s'
      cases names with
      | error error => rfl
      | ok names =>
          cases outcome with
          | error error => rfl
          | ok _ => rfl

theorem compensateEach_traced (done : List (Numbered σ)) (state : SagaState) (world : σ)
    (log : List SagaEvent) :
    ∃ entries, compensateEach (done.map traced) (state, (world, log)) =
        ((compensateEach (done.map Prod.fst) (state, world)).1,
          ((compensateEach (done.map Prod.fst) (state, world)).2.1,
            ((compensateEach (done.map Prod.fst) (state, world)).2.2, log ++ entries))) ∧
      Compensates done entries (compensateEach (done.map Prod.fst) (state, world)).1 := by
  induction done generalizing state world log with
  | nil => exact ⟨[], by simp [compensateEach], [], rfl, rfl, rfl, rfl⟩
  | cons entry rest ih =>
      rw [List.map_cons, List.map_cons]
      cases hcompensation : entry.1.compensation with
      | none =>
          have htraced : (traced entry).compensation = none := by rw [traced, hcompensation]; rfl
          rw [compensateEach, htraced, compensateEach, hcompensation]
          obtain ⟨entries, hrun, hcompensates⟩ := ih state world log
          exact ⟨entries, hrun, hcompensates.skip hcompensation⟩
      | some compensation =>
          have htraced : (traced entry).compensation =
              some (logged (fun outcome => .compensated entry.2 outcome.isOk) compensation) := by
            rw [traced, hcompensation]
            rfl
          rw [compensateEach_cons htraced, compensateEach_cons hcompensation, catching_logged]
          rcases hcaught : catching compensation (state, world) with ⟨caught, state', world'⟩
          cases caught with
          | error error =>
              obtain ⟨hnot, hraised⟩ := catching_error hcaught
              refine ⟨_, rfl, hnot, entry, List.mem_cons_self, Or.inr ⟨compensation, _, hcompensation, hraised⟩⟩
          | ok outcome =>
              obtain ⟨entries, hrun, hcompensates⟩ :=
                ih state' world' (log ++ [.compensated entry.2 outcome.isOk])
              refine ⟨.compensated entry.2 outcome.isOk :: entries, ?_,
                hcompensates.cons (by rw [hcompensation]; rfl) outcome.isOk⟩
              dsimp only
              rw [catching_ok hcaught, hrun, List.append_assoc, List.singleton_append]
              rfl

-- What a run of the steps comes to.
def Comes (numbered : List (Numbered σ)) (log : List SagaEvent) : Except PyError SagaResult → Prop
  | .error error => error.isException = false ∧ ∃ entry ∈ numbered, entry.1.Raises error
  | .ok saga => Succeeded numbered saga log ∨
      ∃ done failing later, numbered = done ++ failing :: later ∧ RolledBack done failing saga log

def doneEvents (done : List (Numbered σ)) : List SagaEvent := done.map fun entry => .acted entry.2 none

theorem rollback_traced (done : List (Numbered σ)) (failing : Numbered σ) (rest : List (Numbered σ))
    (failure : Result Value) (state : SagaState) (world : σ) (log : List SagaEvent)
    (hlog : log = doneEvents done ++ [.acted failing.2 (some failure)]) :
    ∃ log', rollback failing.1.name failure (done.map traced) (state, (world, log)) =
        ((rollback failing.1.name failure (done.map Prod.fst) (state, world)).1,
          ((rollback failing.1.name failure (done.map Prod.fst) (state, world)).2.1,
            ((rollback failing.1.name failure (done.map Prod.fst) (state, world)).2.2, log'))) ∧
      Comes (done ++ failing :: rest) log' (rollback failing.1.name failure (done.map Prod.fst) (state, world)).1 := by
  obtain ⟨entries, hrun, hcompensates⟩ := compensateEach_traced done.reverse state world log
  have hnames : (done.map traced).map SagaStep.name = (done.map Prod.fst).map SagaStep.name := by
    rw [List.map_map, List.map_map]
    rfl
  refine ⟨log ++ entries, ?_⟩
  rw [rollback, rollback]
  simp only [Py.bind_apply, ← List.map_reverse, hrun, hnames]
  rcases hundo : compensateEach (done.reverse.map Prod.fst) (state, world) with ⟨outcome, state', world'⟩
  rw [hundo] at hcompensates
  cases outcome with
  | error error =>
      obtain ⟨hnot, entry, hentry, hraises⟩ := hcompensates
      exact ⟨rfl, hnot, entry, List.mem_append_left _ (List.mem_reverse.mp hentry), hraises⟩
  | ok names =>
      obtain ⟨undone, hundone⟩ := hcompensates
      refine ⟨rfl, Or.inr ⟨done, failing, rest, rfl, ⟨entries, undone, hundone, ?_⟩, ?_, rfl⟩⟩
      · rw [hlog, List.append_assoc, List.singleton_append]
        rfl
      · show (done.map Prod.fst).map SagaStep.name = _
        rw [List.map_map]
        rfl

theorem runSteps_cons (completed rest : List (SagaStep σ)) (step : SagaStep σ) (s : SagaState × σ) :
    runSteps completed (step :: rest) s =
      match catching step.action s with
      | (.error error, s') => (.error error, s')
      | (.ok outcome, s') =>
          match failureOf step outcome with
          | none => runSteps (completed ++ [step]) rest s'
          | some failure => rollback step.name failure completed s' := by
  rw [runSteps]
  simp only [Py.bind_apply]
  rcases catching step.action s with ⟨caught, s'⟩
  cases caught with
  | error error => rfl
  | ok outcome =>
      cases outcome with
      | error error => rfl
      | ok result =>
          cases result with
          | none => rfl
          | some result =>
              dsimp only [failureOf]
              split
              · rfl
              · rfl

theorem runSteps_traced (done rest : List (Numbered σ)) (state : SagaState) (world : σ) :
    ∃ log, runSteps (done.map traced) (rest.map traced) (state, (world, doneEvents done)) =
        ((runSteps (done.map Prod.fst) (rest.map Prod.fst) (state, world)).1,
          ((runSteps (done.map Prod.fst) (rest.map Prod.fst) (state, world)).2.1,
            ((runSteps (done.map Prod.fst) (rest.map Prod.fst) (state, world)).2.2, log))) ∧
      Comes (done ++ rest) log (runSteps (done.map Prod.fst) (rest.map Prod.fst) (state, world)).1 := by
  induction rest generalizing done state world with
  | nil =>
      have hnames : (done.map traced).map SagaStep.name = (done.map Prod.fst).map SagaStep.name := by
        rw [List.map_map, List.map_map]
        rfl
      rw [List.append_nil]
      refine ⟨doneEvents done, ?_, Or.inl ⟨rfl, rfl, ?_, rfl, rfl, rfl⟩⟩
      · rw [List.map_nil, List.map_nil, runSteps, runSteps]
        simp only [Py.bind_apply, hnames]
        rfl
      · show (done.map Prod.fst).map SagaStep.name = _
        rw [List.map_map]
        rfl
  | cons entry rest ih =>
      have haction : (traced entry).action =
          logged (fun outcome => .acted entry.2 (failureOf entry.1 outcome)) entry.1.action := rfl
      rw [List.map_cons, List.map_cons, runSteps_cons, runSteps_cons, haction, catching_logged]
      rcases hcaught : catching entry.1.action (state, world) with ⟨caught, state', world'⟩
      cases caught with
      | error error =>
          obtain ⟨hnot, hraised⟩ := catching_error hcaught
          exact ⟨_, rfl, hnot, entry, List.mem_append_right _ List.mem_cons_self, Or.inl ⟨_, hraised⟩⟩
      | ok outcome =>
          have hfailure : failureOf (traced entry) outcome = failureOf entry.1 outcome := by
            cases outcome <;> rfl
          dsimp only
          rw [catching_ok hcaught, hfailure]
          cases hfailed : failureOf entry.1 outcome with
          | none =>
              have hevents : doneEvents done ++ [.acted entry.2 none] = doneEvents (done ++ [entry]) := by
                rw [doneEvents, doneEvents, List.map_append, List.map_singleton]
              have hsplit : done ++ entry :: rest = done ++ [entry] ++ rest := by
                rw [List.append_assoc, List.singleton_append]
              obtain ⟨log, hrun, hcomes⟩ := ih (done ++ [entry]) state' world'
              simp only [List.map_append, List.map_singleton] at hrun hcomes
              rw [hsplit]
              exact ⟨log, by rw [← hevents] at hrun; exact hrun, hcomes⟩
          | some failure =>
              exact rollback_traced done entry rest failure state' world' _ rfl

-- An execution is that of its trace, and it raises only what is no `Exception`. The
-- trace tells which steps were done and which of them were undone.
theorem execute_undoes (steps : List (SagaStep σ)) (state : Option SagaState) (world : σ) :
    ∃ log, execute (steps.zipIdx.map traced) state (world, []) =
        ((execute steps state world).1, ((execute steps state world).2, log)) ∧
      match (execute steps state world).1 with
      | .error error => error.isException = false ∧ ∃ step ∈ steps, step.Raises error
      | .ok saga => Succeeded steps.zipIdx saga log ∨
          ∃ done failing later, steps.zipIdx = done ++ failing :: later ∧ RolledBack done failing saga log := by
  obtain ⟨log, hrun, hcomes⟩ := runSteps_traced [] steps.zipIdx (state.getD Dict.empty) world
  have hsteps : steps.zipIdx.map Prod.fst = steps := List.zipIdx_map_fst 0 steps
  rw [hsteps] at hrun hcomes
  refine ⟨log, ?_, ?_⟩
  · rw [execute, execute]
    have hstart := congrArg (fun s => (s.1, s.2.2)) hrun
    exact hstart
  · rw [execute]
    rcases horiginal : runSteps [] steps (state.getD Dict.empty, world) with ⟨outcome, state', world'⟩
    rw [List.map_nil, horiginal] at hcomes
    cases outcome with
    | error error =>
        obtain ⟨hnot, entry, hentry, hraises⟩ := hcomes
        exact ⟨hnot, entry.1, hsteps ▸ List.mem_map_of_mem hentry, hraises⟩
    | ok saga => exact hcomes

end Run

end Benzene.Resilience
