import Benzene.Data.Py
import Benzene.Data.Transition
import Benzene.Data.Unicode

namespace Benzene.Core

open Benzene.Data Benzene.Data.Transition

-- The workers' names in registration order, and how long the siblings of the first to
-- finish are given (`None` for as long as they take).
structure WorkerHost (τ : Type) where
  names : List Str
  distinct : names.Nodup
  shutdownTimeout : Option τ

namespace WorkerHost

variable {τ : Type}

section Wiring

variable [UnicodeData]

def create (shutdownTimeout : Option τ) : WorkerHost τ := ⟨[], .nil, shutdownTimeout⟩

def duplicateWorker (host : WorkerHost τ) (name : Str) : PyError :=
  ⟨.exception "DuplicateWorkerError", ("WorkerHost already has a worker named " : Str) ++ Str.repr name ++
    (" (workers: " : Str) ++ Str.join ", " host.names ++
    ("). Give this one a different name, e.g. " : Str) ++ Str.repr name ++ (" and " : Str) ++
    Str.repr (name ++ ("-2" : Str)) ++ (", so shutdown and error reporting can tell them apart." : Str)⟩

def add (host : WorkerHost τ) (name : Str) : Except PyError (WorkerHost τ) :=
  if h : name ∈ host.names then .error (host.duplicateWorker name)
  else .ok ⟨host.names ++ [name], List.nodup_append.mpr ⟨host.distinct, List.nodup_singleton _,
    fun _ ha _ hb he => h (List.mem_singleton.mp hb ▸ he ▸ ha)⟩, host.shutdownTimeout⟩

def noWorkers : PyError :=
  ⟨.exception "NoWorkersError", ("WorkerHost.run() was called with no workers, so this process would start up " ++
    "and handle nothing. Add at least one before running, e.g. " ++
    "host.add(\"http\", uvicorn_worker(app, port=8080)) or " ++
    "host.add(\"sqs\", sqs_consumer_worker(app, client, queue_url))." : String)⟩

def cancelledError : PyError := ⟨.baseException "CancelledError", []⟩

end Wiring

section Running

-- The task of one worker. A task that is cancelled before its first step never enters
-- `_supervise`.
inductive Leg
  | created (cancelled : Bool)
  | running
  | finished (ending : Option PyError)
  | dropped

-- Where `run` is: not yet called, in one of the three waits of `_gather_then_wind_down`,
-- gathering the workers after its own cancellation, or over.
inductive Phase
  | idle
  | first
  | rest (pending : List Nat)
  | stragglers (stillRunning : List Nat)
  | cancelling
  | ended (outcome : Option PyError)

-- `stop` is the shared signal, and `cancelled` whether `run` was asked to cancel.
structure Process where
  stop : Bool
  cancelled : Bool
  legs : List Leg
  phase : Phase

inductive Event
  | wake
  | begin (id : Nat)
  | finish (id : Nat) (ending : Option PyError)
  | cancelTask (id : Nat)
  | requestStop
  | cancelRun

namespace Leg

-- `task.done()`.
def isDone : Leg → Bool
  | .finished _ | .dropped => true
  | _ => false

-- `task.cancel()`. A running worker sees an exception and may end in any way, or not at all.
def cancel : Leg → Leg
  | .created _ => .created true
  | leg => leg

-- What the results of `_gather_then_wind_down` hold for a task that is done.
def outcome : Leg → Option PyError
  | .finished (some error) => if error.kind = cancelledError.kind then some cancelledError else some error
  | .dropped => some cancelledError
  | _ => none

-- The outcome when it is an exception other than `CancelledError`.
def crash (leg : Leg) : Option PyError := leg.outcome.filter fun error => error.kind ≠ cancelledError.kind

end Leg

namespace Process

def start : Process := ⟨false, false, [], .idle⟩

def isDone (s : Process) (id : Nat) : Bool :=
  match s.legs[id]? with
  | some leg => leg.isDone
  | none => true

-- The first failure in registration order is the one raised.
def conclude (s : Process) : Process := { s with phase := .ended (s.legs.findSome? Leg.crash) }

-- `except asyncio.CancelledError`.
def windDown (s : Process) : Process :=
  { s with stop := true, legs := s.legs.map Leg.cancel, phase := .cancelling }

def cancelEach (s : Process) (ids : List Nat) : List Leg :=
  s.legs.mapIdx fun id leg => if id ∈ ids then leg.cancel else leg

end Process

variable (host : WorkerHost τ)

-- `run` up to its next await. A cancellation is raised at the await that `run` is at; the
-- last gather returns only when every worker is done, cancelled again or not.
def resume (s : Process) : Option Process :=
  match s.phase with
  | .idle =>
      if s.cancelled then some { s with phase := .ended (some cancelledError) }
      else if host.names = [] then some { s with phase := .ended (some noWorkers) }
      else some { s with legs := host.names.map fun _ => .created false, phase := .first }
  | .first =>
      if s.cancelled then some s.windDown
      else if s.legs.any Leg.isDone then
        let pending := (List.range s.legs.length).filter fun id => !s.isDone id
        if pending = [] then some s.conclude else some { s with phase := .rest pending }
      else none
  | .rest pending =>
      if s.cancelled then some s.windDown
      else
        let stillRunning := pending.filter fun id => !s.isDone id
        if stillRunning = [] then some s.conclude
        else if host.shutdownTimeout.isSome then
          some { s with legs := s.cancelEach stillRunning, phase := .stragglers stillRunning }
        else none
  | .stragglers stillRunning =>
      if s.cancelled then some s.windDown
      else if stillRunning.all s.isDone then some s.conclude
      else none
  | .cancelling =>
      if s.legs.all Leg.isDone then some { s with phase := .ended (some cancelledError) } else none
  | .ended _ => none

def step (s : Process) : Event → Option Process
  | .wake => host.resume s
  | .begin id =>
      match s.legs[id]? with
      | some (.created false) => some { s with legs := s.legs.set id .running }
      | some (.created true) => some { s with legs := s.legs.set id .dropped }
      | _ => none
  | .finish id ending =>
      match s.legs[id]? with
      | some .running => some { s with stop := true, legs := s.legs.set id (.finished ending) }
      | _ => none
  | .cancelTask id => some { s with legs := s.cancelEach [id] }
  | .requestStop => some { s with stop := true }
  | .cancelRun =>
      match s.phase with
      | .ended _ => none
      | .cancelling => some { s with cancelled := true, legs := s.legs.map Leg.cancel }
      | _ => some { s with cancelled := true }

end Running

section Invariant

variable {host : WorkerHost τ} {s t : Process}

-- Every worker whose task is not awaited any more is done.
def DoneBut (s : Process) (awaited : List Nat) : Prop :=
  ∀ id leg, s.legs[id]? = some leg → id ∉ awaited → leg.isDone = true

-- How `run` ends, by whether it was cancelled and whether it had anything to run.
inductive Ends (host : WorkerHost τ) (s : Process) : Option PyError → Prop
  | cancelled (h : s.cancelled = true) : Ends host s (some cancelledError)
  | noWorkers (h : s.cancelled = false) (none : host.names = []) (legs : s.legs = []) :
      Ends host s (some noWorkers)
  | concluded (h : s.cancelled = false) (some : host.names ≠ [])
      (legs : s.legs.length = host.names.length) : Ends host s (s.legs.findSome? Leg.crash)

def Awaits (host : WorkerHost τ) (s : Process) : Prop :=
  host.names ≠ [] ∧ s.legs.length = host.names.length

-- What `run` knows at each of its awaits.
def Stage (host : WorkerHost τ) (s : Process) : Phase → Prop
  | .idle => s.legs = []
  | .first => Awaits host s
  | .rest pending => Awaits host s ∧ DoneBut s pending
  | .stragglers stillRunning => Awaits host s ∧ DoneBut s stillRunning
  | .cancelling => s.cancelled = true
  | .ended outcome => (∀ leg ∈ s.legs, leg.isDone = true) ∧ Ends host s outcome

structure Sound (host : WorkerHost τ) (s : Process) : Prop where
  stop : (∃ ending, Leg.finished ending ∈ s.legs) → s.stop = true
  stage : Stage host s s.phase

theorem sound_start : Sound host Process.start := by
  constructor
  · rintro ⟨ending, h⟩
    cases h
  · exact rfl

-- Tasks that are done stay as they are.
structure Moves (before after : List Leg) : Prop where
  length : after.length = before.length
  done : ∀ (id : Nat) (leg : Leg), before[id]? = some leg → leg.isDone = true → after[id]? = some leg

theorem Leg.cancel_done {leg : Leg} (h : leg.isDone = true) : leg.cancel = leg := by
  cases leg with
  | created cancelled => cases h
  | running | finished ending | dropped => rfl

theorem moves_cancelEach (s : Process) (ids : List Nat) : Moves s.legs (s.cancelEach ids) := by
  refine ⟨List.length_mapIdx, ?_⟩
  intro id leg hleg hdone
  rw [Process.cancelEach, List.getElem?_mapIdx, hleg, Option.map_some, Leg.cancel_done hdone, ite_self]

theorem moves_set {legs : List Leg} {id : Nat} {old : Leg} (h : legs[id]? = some old)
    (hold : old.isDone = false) (new : Leg) : Moves legs (legs.set id new) := by
  refine ⟨List.length_set, ?_⟩
  intro id' leg hleg hdone
  rw [List.getElem?_set_ne]
  · exact hleg
  · rintro rfl
    rw [h] at hleg
    cases hleg
    rw [hold] at hdone
    cases hdone

theorem Moves.eq_of_done {before after : List Leg} (h : Moves before after)
    (hdone : ∀ leg ∈ before, leg.isDone = true) : after = before := by
  apply List.ext_getElem?
  intro id
  cases hleg : before[id]? with
  | none => rwa [List.getElem?_eq_none_iff, h.length, ← List.getElem?_eq_none_iff]
  | some leg => exact h.done id leg hleg (hdone leg (List.mem_of_getElem? hleg))

theorem Awaits.move (h : Awaits host s) (hlegs : Moves s.legs t.legs) : Awaits host t :=
  ⟨h.1, hlegs.length.trans h.2⟩

theorem DoneBut.move {awaited : List Nat} (h : DoneBut s awaited) (hlegs : Moves s.legs t.legs) :
    DoneBut t awaited := by
  intro id leg hleg hid
  have hlt : id < s.legs.length := by
    rw [← hlegs.length]
    exact (List.getElem?_eq_some_iff.mp hleg).1
  have hdone := h id s.legs[id] (List.getElem?_eq_getElem hlt) hid
  rw [hlegs.done id _ (List.getElem?_eq_getElem hlt) hdone] at hleg
  cases hleg
  exact hdone

-- What moves while `run` waits leaves its stage as it is.
theorem Stage.move {phase : Phase} (h : Stage host s phase) (hlegs : Moves s.legs t.legs)
    (hcancelled : t.cancelled = s.cancelled) : Stage host t phase := by
  cases phase with
  | idle =>
      have hlength := hlegs.length
      rw [show s.legs = [] from h] at hlength
      exact List.length_eq_zero_iff.mp hlength
  | first => exact Awaits.move h hlegs
  | rest pending => exact ⟨h.1.move hlegs, h.2.move hlegs⟩
  | stragglers stillRunning => exact ⟨h.1.move hlegs, h.2.move hlegs⟩
  | cancelling => exact hcancelled.trans h
  | ended outcome =>
      have hsame := hlegs.eq_of_done h.1
      refine ⟨hsame ▸ h.1, ?_⟩
      cases h.2 with
      | cancelled hc => exact .cancelled (hcancelled.trans hc)
      | noWorkers hc hnone hnil => exact .noWorkers (hcancelled.trans hc) hnone (hsame.trans hnil)
      | concluded hc hsome hlength =>
          rw [← hsame]
          exact .concluded (hcancelled.trans hc) hsome (hlegs.length.trans hlength)

theorem finished_cancel {leg : Leg} {ending : Option PyError} (h : leg.cancel = .finished ending) :
    leg = .finished ending := by
  cases leg with
  | created cancelled => cases h
  | running | finished ending | dropped => exact h

theorem finished_cancelEach {ids : List Nat} {ending : Option PyError}
    (h : Leg.finished ending ∈ s.cancelEach ids) : Leg.finished ending ∈ s.legs := by
  obtain ⟨id, hid, hleg⟩ := List.mem_mapIdx.mp h
  have hmem : s.legs[id] ∈ s.legs := List.getElem_mem hid
  split at hleg
  · rwa [finished_cancel hleg] at hmem
  · rwa [hleg] at hmem

theorem finished_map_cancel {legs : List Leg} {ending : Option PyError}
    (h : Leg.finished ending ∈ legs.map Leg.cancel) : Leg.finished ending ∈ legs := by
  obtain ⟨leg, hleg, he⟩ := List.mem_map.mp h
  rwa [finished_cancel he] at hleg

theorem Process.isDone_of {id : Nat} {leg : Leg} (h : s.legs[id]? = some leg) : s.isDone id = leg.isDone := by
  rw [Process.isDone, h]

-- A wait that only forgets what is done.
theorem DoneBut.filter {awaited : List Nat} (h : DoneBut s awaited) :
    DoneBut s (awaited.filter fun id => !s.isDone id) := by
  intro id leg hleg hid
  by_cases hmem : id ∈ awaited
  · cases hdone : leg.isDone with
    | true => rfl
    | false =>
        refine absurd (List.mem_filter.mpr ⟨hmem, ?_⟩) hid
        rw [Process.isDone_of hleg, hdone]
        rfl
  · exact h id leg hleg hmem

theorem DoneBut.done {awaited : List Nat} (h : DoneBut s awaited) (hawaited : ∀ id ∈ awaited, s.isDone id = true) :
    ∀ leg ∈ s.legs, leg.isDone = true := by
  intro leg hleg
  obtain ⟨id, hid⟩ := List.mem_iff_getElem?.mp hleg
  by_cases hmem : id ∈ awaited
  · rw [← Process.isDone_of hid]
    exact hawaited id hmem
  · exact h id leg hid hmem

theorem doneBut_range : DoneBut s (List.range s.legs.length) := by
  intro id leg hleg hid
  exact absurd (List.mem_range.mpr (List.getElem?_eq_some_iff.mp hleg).1) hid

theorem sound_conclude (h : Sound host s) (hcancelled : s.cancelled = false) (hawaits : Awaits host s)
    (hdone : ∀ leg ∈ s.legs, leg.isDone = true) : Sound host s.conclude :=
  ⟨h.stop, hdone, .concluded hcancelled hawaits.1 hawaits.2⟩

theorem sound_windDown (hcancelled : s.cancelled = true) : Sound host s.windDown :=
  ⟨fun _ => rfl, hcancelled⟩

theorem all_done_of_filter {ids : List Nat} (h : (ids.filter fun id => !s.isDone id) = []) :
    ∀ id ∈ ids, s.isDone id = true := by
  intro id hid
  simpa using List.filter_eq_nil_iff.mp h id hid

theorem sound_resume (h : Sound host s) (hstep : host.resume s = some t) : Sound host t := by
  obtain ⟨hstop, hstage⟩ := h
  unfold resume at hstep
  cases hphase : s.phase with
  | idle =>
      rw [hphase] at hstep hstage
      have hlegs : s.legs = [] := hstage
      have hnone : ∀ leg ∈ s.legs, leg.isDone = true := by
        rw [hlegs]
        exact fun _ hleg => nomatch hleg
      simp only at hstep
      split at hstep
      · rename_i hcancelled
        cases hstep
        exact ⟨hstop, hnone, .cancelled hcancelled⟩
      · rename_i hcancelled
        rw [Bool.not_eq_true] at hcancelled
        split at hstep
        · rename_i hnames
          cases hstep
          exact ⟨hstop, hnone, .noWorkers hcancelled hnames hlegs⟩
        · rename_i hnames
          cases hstep
          refine ⟨?_, hnames, List.length_map _⟩
          rintro ⟨ending, hmem⟩
          obtain ⟨name, -, he⟩ := List.mem_map.mp hmem
          cases he
  | first =>
      rw [hphase] at hstep hstage
      simp only at hstep
      split at hstep
      · rename_i hcancelled
        cases hstep
        exact sound_windDown hcancelled
      · rename_i hcancelled
        rw [Bool.not_eq_true] at hcancelled
        split at hstep
        · split at hstep
          · rename_i hpending
            cases hstep
            exact sound_conclude ⟨hstop, hphase ▸ hstage⟩ hcancelled hstage
              (doneBut_range.done (all_done_of_filter hpending))
          · cases hstep
            exact ⟨hstop, hstage, doneBut_range.filter⟩
        · cases hstep
  | rest pending =>
      rw [hphase] at hstep hstage
      obtain ⟨hawaits, hbut⟩ := hstage
      simp only at hstep
      split at hstep
      · rename_i hcancelled
        cases hstep
        exact sound_windDown hcancelled
      · rename_i hcancelled
        rw [Bool.not_eq_true] at hcancelled
        split at hstep
        · rename_i hstill
          cases hstep
          refine sound_conclude ⟨hstop, ?_⟩ hcancelled hawaits (hbut.done (all_done_of_filter hstill))
          rw [hphase]
          exact ⟨hawaits, hbut⟩
        · split at hstep
          · cases hstep
            have hmoves := moves_cancelEach s (pending.filter fun id => !s.isDone id)
            refine ⟨?_, hawaits.move hmoves, hbut.filter.move hmoves⟩
            rintro ⟨ending, hmem⟩
            exact hstop ⟨ending, finished_cancelEach hmem⟩
          · cases hstep
  | stragglers stillRunning =>
      rw [hphase] at hstep hstage
      obtain ⟨hawaits, hbut⟩ := hstage
      simp only at hstep
      split at hstep
      · rename_i hcancelled
        cases hstep
        exact sound_windDown hcancelled
      · rename_i hcancelled
        rw [Bool.not_eq_true] at hcancelled
        split at hstep
        · rename_i hall
          cases hstep
          refine sound_conclude ⟨hstop, ?_⟩ hcancelled hawaits (hbut.done (List.all_eq_true.mp hall))
          rw [hphase]
          exact ⟨hawaits, hbut⟩
        · cases hstep
  | cancelling =>
      rw [hphase] at hstep hstage
      simp only at hstep
      split at hstep
      · rename_i hall
        cases hstep
        exact ⟨hstop, List.all_eq_true.mp hall, .cancelled hstage⟩
      · cases hstep
  | ended outcome =>
      rw [hphase] at hstep
      cases hstep

theorem Sound.set {id : Nat} {old new : Leg} (h : Sound host s) (hleg : s.legs[id]? = some old)
    (hold : old.isDone = false) (hnew : ∀ ending, new ≠ .finished ending) :
    Sound host { s with legs := s.legs.set id new } := by
  refine ⟨?_, h.stage.move (moves_set hleg hold new) rfl⟩
  rintro ⟨ending, hmem⟩
  rcases List.mem_or_eq_of_mem_set hmem with hmem | he
  · exact h.stop ⟨ending, hmem⟩
  · exact absurd he.symm (hnew ending)

theorem Sound.step {event : Event} (h : Sound host s) (hstep : step host s event = some t) : Sound host t := by
  cases event with
  | wake => exact sound_resume h hstep
  | begin id =>
      simp only [WorkerHost.step] at hstep
      split at hstep
      · rename_i hleg
        cases hstep
        exact h.set hleg rfl fun _ he => nomatch he
      · rename_i hleg
        cases hstep
        exact h.set hleg rfl fun _ he => nomatch he
      · cases hstep
  | finish id ending =>
      simp only [WorkerHost.step] at hstep
      split at hstep
      · rename_i hleg
        cases hstep
        exact ⟨fun _ => rfl, h.stage.move (moves_set hleg rfl _) rfl⟩
      · cases hstep
  | cancelTask id =>
      cases hstep
      refine ⟨?_, h.stage.move (moves_cancelEach s [id]) rfl⟩
      rintro ⟨ending, hmem⟩
      exact h.stop ⟨ending, finished_cancelEach hmem⟩
  | requestStop =>
      cases hstep
      exact ⟨fun _ => rfl, h.stage.move ⟨rfl, fun _ _ hleg _ => hleg⟩ rfl⟩
  | cancelRun =>
      have hstage := h.stage
      simp only [WorkerHost.step] at hstep
      cases hphase : s.phase with
      | ended outcome =>
          rw [hphase] at hstep
          cases hstep
      | cancelling =>
          rw [hphase] at hstep
          cases hstep
          refine ⟨?_, rfl⟩
          rintro ⟨ending, hmem⟩
          exact h.stop ⟨ending, finished_map_cancel hmem⟩
      | idle | first | rest pending | stragglers stillRunning =>
          rw [hphase] at hstep hstage
          cases hstep
          exact ⟨h.stop, hstage⟩

theorem sound_of_reaches {allowed : Process → Event → Prop} (h : Reaches (step host) allowed Process.start s) :
    Sound host s :=
  h.invariant sound_start fun _ _ _ hs _ hstep => hs.step hstep

end Invariant

section Winding

variable {host : WorkerHost τ} {s : Process}

theorem findSome?_crash {legs : List Leg} {error : PyError} :
    legs.findSome? Leg.crash = some error ↔ ∃ (id : Nat) (leg : Leg), legs[id]? = some leg ∧ leg.crash = some error ∧
      ∀ (earlier : Nat) (other : Leg), earlier < id → legs[earlier]? = some other → other.crash = none := by
  induction legs with
  | nil => simp
  | cons leg rest ih =>
      rw [List.findSome?_cons]
      cases hcrash : leg.crash with
      | some found =>
          constructor
          · rintro ⟨⟩
            exact ⟨0, leg, rfl, hcrash, fun earlier _ hlt => absurd hlt (Nat.not_lt_zero earlier)⟩
          · rintro ⟨id, later, hleg, hlater, hearlier⟩
            cases id with
            | zero =>
                cases hleg
                exact hcrash.symm.trans hlater
            | succ id =>
                rw [hearlier 0 leg (Nat.succ_pos id) rfl] at hcrash
                cases hcrash
      | none =>
          rw [ih]
          constructor
          · rintro ⟨id, later, hleg, hlater, hearlier⟩
            refine ⟨id + 1, later, hleg, hlater, ?_⟩
            intro earlier other hlt hother
            cases earlier with
            | zero =>
                cases hother
                exact hcrash
            | succ earlier => exact hearlier earlier other (Nat.lt_of_succ_lt_succ hlt) hother
          · rintro ⟨id, later, hleg, hlater, hearlier⟩
            cases id with
            | zero =>
                cases hleg
                rw [hcrash] at hlater
                cases hlater
            | succ id =>
                exact ⟨id, later, hleg, hlater,
                  fun earlier other hlt hother => hearlier (earlier + 1) other (Nat.succ_lt_succ hlt) hother⟩

theorem findSome?_crash_isSome {legs : List Leg} :
    (legs.findSome? Leg.crash).isSome = true ↔ ∃ leg ∈ legs, leg.crash.isSome = true := by
  rw [List.findSome?_isSome_iff]

-- `run` is over only when every worker is, a worker that is done has set the signal, and
-- no crash is hidden.
theorem run_winds_down (h : Reaches (step host) (fun _ _ => True) Process.start s) :
    ((∃ ending, Leg.finished ending ∈ s.legs) → s.stop = true) ∧
    ∀ outcome, s.phase = .ended outcome →
      (∀ leg ∈ s.legs, leg.isDone = true) ∧
      (host.names = [] → s.cancelled = false → outcome = some noWorkers ∧ s.legs = []) ∧
      (host.names ≠ [] →
        (outcome.isSome = true ↔ s.cancelled = true ∨ ∃ leg ∈ s.legs, leg.crash.isSome = true) ∧
        (s.cancelled = false → s.legs.length = host.names.length ∧
          ∀ error, outcome = some error ↔ ∃ (id : Nat) (leg : Leg), s.legs[id]? = some leg ∧
            leg.crash = some error ∧
            ∀ (earlier : Nat) (other : Leg), earlier < id → s.legs[earlier]? = some other →
              other.crash = none)) ∧
      (s.cancelled = true → outcome = some cancelledError) := by
  obtain ⟨hstop, hstage⟩ := sound_of_reaches h
  refine ⟨hstop, ?_⟩
  intro outcome hended
  rw [hended] at hstage
  obtain ⟨hdone, hends⟩ := hstage
  refine ⟨hdone, ?_⟩
  cases hends with
  | cancelled hcancelled =>
      refine ⟨?_, ?_, fun _ => rfl⟩
      · intro _ hnot
        rw [hcancelled] at hnot
        cases hnot
      · intro _
        refine ⟨iff_of_true rfl (.inl hcancelled), ?_⟩
        intro hnot
        rw [hcancelled] at hnot
        cases hnot
  | noWorkers hcancelled hnone hlegs =>
      refine ⟨fun _ _ => ⟨rfl, hlegs⟩, fun hsome => absurd hnone hsome, ?_⟩
      intro hyes
      rw [hcancelled] at hyes
      cases hyes
  | concluded hcancelled hsome hlength =>
      refine ⟨fun hnone => absurd hnone hsome, ?_, ?_⟩
      · intro _
        refine ⟨?_, fun _ => ⟨hlength, fun error => findSome?_crash⟩⟩
        rw [findSome?_crash_isSome, hcancelled]
        simp
      · intro hyes
        rw [hcancelled] at hyes
        cases hyes

def noHost : WorkerHost Unit := create none

def pair : WorkerHost Unit := ⟨["http", "sqs"], by decide, none⟩

-- A host without workers raises although nothing crashed, and a task that is cancelled
-- before its first step is done without the signal.
theorem not_run_winds_down :
    (∃ s, Reaches (step noHost) (fun _ _ => True) Process.start s ∧ s.phase = .ended (some noWorkers) ∧
      s.cancelled = false ∧ s.legs = []) ∧
    ∃ s, Reaches (step pair) (fun _ _ => True) Process.start s ∧ (∃ leg ∈ s.legs, leg.isDone = true) ∧
      s.stop = false := by
  constructor
  · refine ⟨⟨false, false, [], .ended (some noWorkers)⟩, ?_, rfl, rfl, rfl⟩
    exact .next (a := .wake) .refl trivial rfl
  · refine ⟨⟨false, false, [.dropped, .created false], .first⟩, ?_, ⟨.dropped, List.mem_cons_self, rfl⟩, rfl⟩
    exact .next (a := .begin 0) (.next (a := .cancelTask 0) (.next (a := .wake) .refl trivial rfl)
      trivial rfl) trivial rfl

def crashed : PyError := ⟨.exception "RuntimeError", "kafka broker went away"⟩

-- The second worker crashes, and the first then returns.
theorem run_winds_down_pair :
    let s : Process := ⟨true, false, [.finished none, .finished (some crashed)], .ended (some crashed)⟩
    s.stop = true ∧ ∀ leg ∈ s.legs, leg.isDone = true := by
  have hreaches : Reaches (step pair) (fun _ _ => True) Process.start
      ⟨true, false, [.finished none, .finished (some crashed)], .ended (some crashed)⟩ :=
    .next (a := .wake) (.next (a := .finish 0 none) (.next (a := .wake) (.next (a := .finish 1 (some crashed))
      (.next (a := .begin 1) (.next (a := .begin 0) (.next (a := .wake) .refl trivial rfl) trivial rfl)
      trivial rfl) trivial rfl) trivial rfl) trivial rfl) trivial rfl
  have h := run_winds_down hreaches
  exact ⟨h.1 ⟨none, List.mem_cons_self⟩, (h.2 _ rfl).1⟩

end Winding

end WorkerHost

end Benzene.Core
