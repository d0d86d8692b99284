import Benzene.Data.Transition
import Benzene.Resilience.Stack

namespace Benzene.Resilience

open Benzene.Data Benzene.Data.Transition Benzene.Results Benzene.Core

section Settling

-- How a call that was let through ends: with a result, or with an error that is raised.
inductive Ending
  | answered (result : Result Value)
  | raised (error : PyError)

namespace CircuitBreaker

variable (breaker : CircuitBreaker) (clock : ℚ)

-- A cancelled call leaves the breaker as it is.
def settle (ending : Ending) (held : BreakerState) : BreakerState :=
  match ending with
  | .answered result => breaker.record clock result held
  | .raised error => if error.isException then breaker.onFailure clock held else held

def succeeds : Ending → Bool
  | .answered result => result.isSuccessful || result.status ∉ breaker.tripOn
  | .raised _ => false

def fails : Ending → Bool
  | .answered result => !(result.isSuccessful || result.status ∉ breaker.tripOn)
  | .raised error => error.isException

def trips (ending : Ending) (held : BreakerState) : Bool :=
  breaker.fails ending &&
    (held.state = .halfOpen || max 1 breaker.failureThreshold ≤ ((held.consecutiveFailures + 1 : Nat) : Int))

variable {breaker clock} {ending : Ending} {held : BreakerState}

theorem settle_success (h : breaker.succeeds ending = true) :
    breaker.settle clock ending held = onSuccess held := by
  cases ending with
  | raised error => cases h
  | answered result => exact if_pos h

theorem settle_failure (h : breaker.fails ending = true) :
    breaker.settle clock ending held = breaker.onFailure clock held := by
  cases ending with
  | raised error => exact if_pos h
  | answered result =>
      apply if_neg
      simpa [fails] using h

theorem settle_cancelled (hs : breaker.succeeds ending = false) (hf : breaker.fails ending = false) :
    breaker.settle clock ending held = held := by
  cases ending with
  | raised error => exact if_neg (by simpa [fails] using hf)
  | answered result =>
      simp only [succeeds, fails] at hs hf
      rw [hs] at hf
      cases hf

theorem onFailure_eq : breaker.onFailure clock held =
    if held.state = .halfOpen then trip clock { held with probing := false }
    else if max 1 breaker.failureThreshold ≤ ((held.consecutiveFailures + 1 : Nat) : Int) then
      trip clock { held with probing := false, consecutiveFailures := held.consecutiveFailures + 1 }
    else { held with probing := false, consecutiveFailures := held.consecutiveFailures + 1 } := rfl

theorem onFailure_tripped
    (h : held.state = .halfOpen ∨
      max 1 breaker.failureThreshold ≤ ((held.consecutiveFailures + 1 : Nat) : Int)) :
    (breaker.onFailure clock held).state = .opened ∧ (breaker.onFailure clock held).openedAt = clock ∧
      (breaker.onFailure clock held).probing = false := by
  rw [onFailure_eq]
  by_cases hhalf : held.state = .halfOpen
  · rw [if_pos hhalf]
    exact ⟨rfl, rfl, rfl⟩
  · rw [if_neg hhalf, if_pos (h.resolve_left hhalf)]
    exact ⟨rfl, rfl, rfl⟩

theorem onFailure_counted (hhalf : held.state ≠ .halfOpen)
    (hcount : ¬max 1 breaker.failureThreshold ≤ ((held.consecutiveFailures + 1 : Nat) : Int)) :
    breaker.onFailure clock held =
      { held with probing := false, consecutiveFailures := held.consecutiveFailures + 1 } := by
  rw [onFailure_eq, if_neg hhalf, if_neg hcount]

theorem settle_trip (h : breaker.trips ending held = true) :
    (breaker.settle clock ending held).state = .opened ∧
      (breaker.settle clock ending held).openedAt = clock ∧
      (breaker.settle clock ending held).probing = false := by
  obtain ⟨hfails, hcause⟩ := Bool.and_eq_true_iff.mp h
  rw [settle_failure hfails]
  apply onFailure_tripped
  simpa using hcause

-- A failure that does not trip is only counted.
theorem settle_counted (hf : breaker.fails ending = true) (h : breaker.trips ending held = false) :
    held.state ≠ .halfOpen ∧ breaker.settle clock ending held =
      { held with probing := false, consecutiveFailures := held.consecutiveFailures + 1 } := by
  have hcause : held.state ≠ .halfOpen ∧
      ¬max 1 breaker.failureThreshold ≤ ((held.consecutiveFailures + 1 : Nat) : Int) := by
    simpa [trips, hf] using h
  rw [settle_failure hf]
  exact ⟨hcause.1, onFailure_counted hcause.1 hcause.2⟩

-- What the end of a call does to the breaker.
inductive Settled (breaker : CircuitBreaker) (clock : ℚ) (ending : Ending) (held : BreakerState) :
    BreakerState → Prop
  | closed (h : breaker.succeeds ending = true) : Settled breaker clock ending held (onSuccess held)
  | tripped (h : breaker.trips ending held = true) {after : BreakerState} (state : after.state = .opened)
      (openedAt : after.openedAt = clock) : Settled breaker clock ending held after
  | counted (h : breaker.fails ending = true) (state : held.state ≠ .halfOpen) :
      Settled breaker clock ending held
        { held with probing := false, consecutiveFailures := held.consecutiveFailures + 1 }
  | kept (hs : breaker.succeeds ending = false) (hf : breaker.fails ending = false) :
      Settled breaker clock ending held held

theorem settled (breaker : CircuitBreaker) (clock : ℚ) (ending : Ending) (held : BreakerState) :
    Settled breaker clock ending held (breaker.settle clock ending held) := by
  cases hs : breaker.succeeds ending with
  | true =>
      rw [settle_success hs]
      exact .closed hs
  | false =>
      cases hf : breaker.fails ending with
      | false =>
          rw [settle_cancelled hs hf]
          exact .kept hs hf
      | true =>
          cases ht : breaker.trips ending held with
          | true =>
              obtain ⟨state, openedAt, -⟩ := settle_trip ht
              exact .tripped ht state openedAt
          | false =>
              obtain ⟨hhalf, hcounted⟩ := settle_counted hf ht
              rw [hcounted]
              exact .counted hf hhalf

-- What it takes for a call to go on, and what lets it.
inductive Admitted (breaker : CircuitBreaker) (clock : ℚ) (held : BreakerState) : BreakerState → Prop
  | closed (state : held.state = .closed) : Admitted breaker clock held held
  | elapsed (state : held.state = .opened) (elapsed : breaker.resetElapsed clock held = true) :
      Admitted breaker clock held { held with state := .halfOpen, probing := true }
  | unprobed (state : held.state = .halfOpen) (probing : held.probing = false) :
      Admitted breaker clock held { held with probing := true }

theorem admitCall_closed (h : held.state = .closed) : breaker.admitCall clock held = (true, held) := by
  obtain ⟨state, failures, openedAt, probing⟩ := held
  cases h
  rfl

theorem admitCall_opened (h : held.state = .opened) : breaker.admitCall clock held =
    if breaker.resetElapsed clock held then (true, { held with state := .halfOpen, probing := true })
    else (false, held) := by
  obtain ⟨state, failures, openedAt, probing⟩ := held
  cases h
  rfl

theorem admitCall_halfOpen (h : held.state = .halfOpen) : breaker.admitCall clock held =
    if held.probing then (false, held) else (true, { held with probing := true }) := by
  obtain ⟨state, failures, openedAt, probing⟩ := held
  cases h
  rfl

-- Rounding a difference does not make it less than a timeout that it reaches.
theorem resetElapsed_of_le (h : held.openedAt + breaker.resetTimeout ≤ clock) :
    breaker.resetElapsed clock held = true := by
  have hround := breaker.numbers.mono (le_sub_iff_add_le'.mpr h)
  rw [breaker.timeout_round] at hround
  exact decide_eq_true hround

theorem admitted (h : (breaker.admitCall clock held).1 = true) :
    Admitted breaker clock held (breaker.admitCall clock held).2 := by
  cases hstate : held.state with
  | closed =>
      rw [admitCall_closed hstate]
      exact .closed hstate
  | opened =>
      rw [admitCall_opened hstate] at h ⊢
      by_cases hreset : breaker.resetElapsed clock held = true
      · rw [if_pos hreset]
        exact .elapsed hstate hreset
      · rw [if_neg hreset] at h
        cases h
  | halfOpen =>
      rw [admitCall_halfOpen hstate] at h ⊢
      by_cases hprobing : held.probing = true
      · rw [if_pos hprobing] at h
        cases h
      · rw [if_neg hprobing]
        exact .unprobed hstate (Bool.eq_false_iff.mpr hprobing)

theorem rejected (h : (breaker.admitCall clock held).1 = false) :
    (breaker.admitCall clock held).2 = held ∧
      (held.state = .opened ∧ clock < held.openedAt + breaker.resetTimeout ∨
        held.state = .halfOpen ∧ held.probing = true) := by
  cases hstate : held.state with
  | closed =>
      rw [admitCall_closed hstate] at h
      cases h
  | opened =>
      rw [admitCall_opened hstate] at h ⊢
      by_cases hreset : breaker.resetElapsed clock held = true
      · rw [if_pos hreset] at h
        cases h
      · rw [if_neg hreset]
        have hlt : ¬held.openedAt + breaker.resetTimeout ≤ clock := fun hle => hreset (resetElapsed_of_le hle)
        exact ⟨rfl, .inl ⟨rfl, not_le.mp hlt⟩⟩
  | halfOpen =>
      rw [admitCall_halfOpen hstate] at h ⊢
      by_cases hprobing : held.probing = true
      · rw [if_pos hprobing]
        exact ⟨rfl, .inr ⟨rfl, hprobing⟩⟩
      · rw [if_neg hprobing] at h
        cases h

-- Half-open always has its probe, admitted or settled.
theorem Admitted.probing {after : BreakerState} (h : Admitted breaker clock held after)
    (hafter : after.state = .halfOpen) : after.probing = true := by
  cases h with
  | closed state =>
      rw [state] at hafter
      cases hafter
  | elapsed => rfl
  | unprobed => rfl

theorem Settled.probing {after : BreakerState} (h : Settled breaker clock ending held after)
    (hheld : held.state = .halfOpen → held.probing = true) (hafter : after.state = .halfOpen) :
    after.probing = true := by
  cases h with
  | closed => cases hafter
  | tripped h state =>
      rw [state] at hafter
      cases hafter
  | counted h state => exact absurd hafter state
  | kept => exact hheld hafter

-- Only an outcome that is not recorded leaves a circuit half-open.
theorem Settled.unrecorded {after : BreakerState} (h : Settled breaker clock ending held after)
    (hafter : after.state = .halfOpen) :
    held.state = .halfOpen ∧ ¬(breaker.succeeds ending = true ∨ breaker.fails ending = true) := by
  cases h with
  | closed => cases hafter
  | tripped h state =>
      rw [state] at hafter
      cases hafter
  | counted h state => exact absurd hafter state
  | kept hs hf => exact ⟨hafter, by simp [hs, hf]⟩

end CircuitBreaker

end Settling

section Execute

def Ending.ofOutcome : Except PyError (Result Value) → Ending
  | .ok result => .answered result
  | .error error => .raised error

variable {σ : Type} {breaker : CircuitBreaker} {held : Held σ BreakerState} {clock : σ → ℚ} {next : Step σ Unit}
  {context after : Context} {world later : σ}

-- One call through the interception is let through, runs, and settles the breaker
-- as it then is.
theorem circuitBreakerInterception_admitted {outcome : Except PyError (Result Value)}
    (ok : (breaker.admitCall (clock world) (held.get world)).1 = true)
    (hrun : run next (context, held.set (breaker.admitCall (clock world) (held.get world)).2 world) =
      (outcome, (after, later))) :
    held.get (circuitBreakerInterception breaker held clock next (context, world)).2.2 =
      breaker.settle (clock later) (.ofOutcome outcome) (held.get later) := by
  unfold circuitBreakerInterception
  rw [Py.bind_ok (Py.get_apply _)]
  dsimp only
  rw [Py.bind_ok (Held.modify_apply _ _ _), if_pos ok]
  cases outcome with
  | ok result =>
      rw [Py.bind_ok (tryCatch_ok hrun), Py.bind_ok (Py.get_apply _)]
      dsimp only
      rw [Py.bind_ok (Held.modify_apply _ _ _), setResult_apply]
      exact held.get_set _ _
  | error error =>
      rw [Py.bind_apply, Py.tryCatch, hrun]
      dsimp only
      rw [Py.bind_ok (Py.get_apply _)]
      cases hkind : error.isException with
      | true =>
          simp only [if_true]
          rw [Py.bind_ok (Held.modify_apply _ _ _), Py.throw_apply]
          simp only [held.get_set]
          exact (if_pos hkind).symm
      | false =>
          simp only [Bool.false_eq_true, if_false]
          exact (if_neg (by simp [hkind])).symm

theorem circuitBreakerInterception_rejected
    (no : (breaker.admitCall (clock world) (held.get world)).1 = false) :
    held.get (circuitBreakerInterception breaker held clock next (context, world)).2.2 = held.get world := by
  unfold circuitBreakerInterception
  rw [Py.bind_ok (Py.get_apply _)]
  dsimp only
  rw [Py.bind_ok (Held.modify_apply _ _ _), if_neg (by simp [no]), setResult_apply]
  rw [held.get_set, (CircuitBreaker.rejected no).1]

end Execute

section Calls

structure Call where
  id : Nat
  probe : Bool
deriving DecidableEq

-- The breaker, the calls it has let through that are still running, and the last
-- reading of the clock.
structure Guarded where
  held : BreakerState := {}
  calls : List Call := []
  issued : Nat := 0
  now : ℚ := 0

-- A call starts, or one that is in flight ends.
inductive BreakerEvent
  | start (clock : ℚ)
  | finish (id : Nat) (clock : ℚ) (ending : Ending)

namespace Guarded

variable (breaker : CircuitBreaker)

def admits (guarded : Guarded) (clock : ℚ) : Bool := (breaker.admitCall clock guarded.held).1

-- The call that starts at `clock`, once it is let through.
def started (guarded : Guarded) (clock : ℚ) : Guarded :=
  let held := (breaker.admitCall clock guarded.held).2
  ⟨held, guarded.calls ++ [⟨guarded.issued, held.state = .halfOpen⟩], guarded.issued + 1, clock⟩

def finish (guarded : Guarded) (id : Nat) (clock : ℚ) (ending : Ending) : Guarded :=
  { guarded with
    held := breaker.settle clock ending guarded.held
    calls := guarded.calls.filter fun call => call.id ≠ id
    now := clock }

-- The clock does not go back, and only a call in flight can end.
def step (guarded : Guarded) : BreakerEvent → Option Guarded
  | .start clock =>
      if clock < guarded.now then none
      else if guarded.admits breaker clock then some (guarded.started breaker clock)
      else some { guarded with held := (breaker.admitCall clock guarded.held).2, now := clock }
  | .finish id clock ending =>
      if clock < guarded.now ∨ id ∉ guarded.calls.map Call.id then none
      else some (guarded.finish breaker id clock ending)

inductive Steps (breaker : CircuitBreaker) (guarded : Guarded) : BreakerEvent → Guarded → Prop
  | admitted {clock : ℚ} (later : guarded.now ≤ clock) (ok : guarded.admits breaker clock = true) :
      Steps breaker guarded (.start clock) (guarded.started breaker clock)
  | rejected {clock : ℚ} (later : guarded.now ≤ clock) (no : guarded.admits breaker clock = false) :
      Steps breaker guarded (.start clock) { guarded with now := clock }
  | finished {id : Nat} {clock : ℚ} {ending : Ending} (later : guarded.now ≤ clock)
      (running : id ∈ guarded.calls.map Call.id) :
      Steps breaker guarded (.finish id clock ending) (guarded.finish breaker id clock ending)

variable {breaker} {guarded after : Guarded} {event : BreakerEvent}

theorem steps (h : step breaker guarded event = some after) : Steps breaker guarded event after := by
  cases event with
  | start clock =>
      rw [step] at h
      by_cases hclock : clock < guarded.now
      · rw [if_pos hclock] at h
        cases h
      · rw [if_neg hclock] at h
        by_cases hadmits : guarded.admits breaker clock = true
        · rw [if_pos hadmits] at h
          cases h
          exact .admitted (not_lt.mp hclock) hadmits
        · rw [if_neg hadmits] at h
          have hno := Bool.eq_false_iff.mpr hadmits
          rw [(CircuitBreaker.rejected hno).1] at h
          cases h
          exact .rejected (not_lt.mp hclock) hno
  | finish id clock ending =>
      rw [step] at h
      by_cases hok : clock < guarded.now ∨ id ∉ guarded.calls.map Call.id
      · rw [if_pos hok] at h
        cases h
      · rw [if_neg hok] at h
        cases h
        obtain ⟨hclock, hid⟩ := not_or.mp hok
        exact .finished (not_lt.mp hclock) (not_not.mp hid)

theorem step_start {clock : ℚ} (later : guarded.now ≤ clock) (ok : guarded.admits breaker clock = true) :
    step breaker guarded (.start clock) = some (guarded.started breaker clock) := by
  rw [step, if_neg (not_lt.mpr later), if_pos ok]

theorem step_finish {id : Nat} {clock : ℚ} {ending : Ending} (later : guarded.now ≤ clock)
    (running : id ∈ guarded.calls.map Call.id) :
    step breaker guarded (.finish id clock ending) = some (guarded.finish breaker id clock ending) := by
  rw [step, if_neg (not_or.mpr ⟨not_lt.mpr later, not_not.mpr running⟩)]

theorem mem_started {clock : ℚ} {call : Call} (h : call ∈ (guarded.started breaker clock).calls) :
    call ∈ guarded.calls ∨
      call = ⟨guarded.issued, (breaker.admitCall clock guarded.held).2.state = .halfOpen⟩ :=
  List.mem_append.mp h |>.imp_right List.mem_singleton.mp

theorem mem_finish {id : Nat} {clock : ℚ} {ending : Ending} {call : Call} :
    call ∈ (guarded.finish breaker id clock ending).calls ↔ call ∈ guarded.calls ∧ call.id ≠ id := by
  unfold finish
  rw [List.mem_filter, decide_eq_true_iff]

-- Calls are numbered as they are let through, and a half-open circuit has its probe.
structure Ordered (guarded : Guarded) : Prop where
  below : ∀ call ∈ guarded.calls, call.id < guarded.issued
  distinct : (guarded.calls.map Call.id).Nodup
  probing : guarded.held.state = .halfOpen → guarded.held.probing = true

theorem ordered_start (first : ℚ) : Ordered { now := first } where
  below := fun _ h => nomatch h
  distinct := List.nodup_nil
  probing := fun h => nomatch h

theorem Ordered.started {clock : ℚ} (h : Ordered guarded) (ok : guarded.admits breaker clock = true) :
    Ordered (guarded.started breaker clock) where
  below := by
    intro call hcall
    show call.id < guarded.issued + 1
    cases mem_started hcall with
    | inl hold =>
        have hlt := h.below call hold
        omega
    | inr hnew =>
        rw [hnew]
        exact Nat.lt_succ_self _
  distinct := by
    unfold Guarded.started
    rw [List.map_append, List.map_singleton, List.nodup_append]
    refine ⟨h.distinct, List.nodup_singleton _, ?_⟩
    intro a ha b hb heq
    obtain ⟨call, hcall, rfl⟩ := List.mem_map.mp ha
    have hlt := h.below call hcall
    rw [heq, List.mem_singleton.mp hb] at hlt
    exact absurd hlt (Nat.lt_irrefl _)
  probing := (CircuitBreaker.admitted ok).probing

theorem Ordered.finish {id : Nat} {clock : ℚ} {ending : Ending} (h : Ordered guarded) :
    Ordered (guarded.finish breaker id clock ending) where
  below := by
    intro call hcall
    exact h.below call (mem_finish.mp hcall).1
  distinct := h.distinct.sublist (List.filter_sublist.map _)
  probing := (CircuitBreaker.settled ..).probing h.probing

theorem Ordered.step (h : Ordered guarded) (hstep : Guarded.step breaker guarded event = some after) :
    Ordered after := by
  cases steps hstep with
  | admitted later ok => exact h.started ok
  | rejected => exact ⟨h.below, h.distinct, h.probing⟩
  | finished => exact h.finish

theorem ordered {allowed : Guarded → BreakerEvent → Prop} {first : ℚ}
    (h : Reaches (step breaker) allowed { now := first } guarded) : Ordered guarded :=
  h.invariant (ordered_start first) fun _ _ _ hs _ hstep => hs.step hstep

end Guarded

end Calls

section Window

namespace Guarded

variable (breaker : CircuitBreaker)

-- The time since the opening is not rounded up to the timeout.
def OnTime (guarded : Guarded) (clock : ℚ) : Prop :=
  guarded.held.state = .opened → breaker.resetTimeout ≤ breaker.numbers.round (clock - guarded.held.openedAt) →
    breaker.resetTimeout ≤ clock - guarded.held.openedAt

-- A call that starts while the circuit is open is on time, and one that finishes with a
-- recorded success while it is not closed is its probe.
def KeepsWindow (guarded : Guarded) : BreakerEvent → Prop
  | .start clock => OnTime breaker guarded clock
  | .finish id _ ending => breaker.succeeds ending = true →
      guarded.held.state = .closed ∨ guarded.held.state = .halfOpen ∧ id + 1 = guarded.issued

def Trips (guarded : Guarded) : BreakerEvent → Prop
  | .start _ => False
  | .finish _ _ ending => breaker.trips ending guarded.held = true

variable {breaker} {guarded after : Guarded} {event : BreakerEvent} {t : ℚ}

-- A clock of exact numbers is never early.
theorem onTime_exact (h : breaker.numbers = .exact) (guarded : Guarded) (clock : ℚ) :
    OnTime breaker guarded clock := by
  intro _ hrounded
  rw [h] at hrounded
  exact hrounded

-- A clock of floats may be: `15.44 - 5.44` is `10.0`.
example :
    let breaker : CircuitBreaker :=
      { resetTimeout := 10, numbers := binary64.rounding, timeout_round := by decide +kernel }
    let opened : BreakerState := { state := .opened, openedAt := binary64.round (mkRat 544 100) }
    let clock := binary64.round (mkRat 1544 100)
    breaker.resetElapsed clock opened = true ∧ clock < opened.openedAt + breaker.resetTimeout := by
  decide +kernel

-- After a trip at `t` the circuit is open, or its window has passed.
def Windowed (breaker : CircuitBreaker) (t : ℚ) (guarded : Guarded) : Prop :=
  t ≤ guarded.now ∧ (guarded.held.state = .opened ∧ t ≤ guarded.held.openedAt ∨
    t + breaker.resetTimeout ≤ guarded.now)

-- No call but its own probe closes an open circuit.
theorem finish_opened {id : Nat} {clock : ℚ} {ending : Ending} (h : guarded.held.state = .opened)
    (ok : KeepsWindow breaker guarded (.finish id clock ending)) :
    (guarded.finish breaker id clock ending).held.state = .opened ∧
      ((guarded.finish breaker id clock ending).held.openedAt = clock ∨
        (guarded.finish breaker id clock ending).held.openedAt = guarded.held.openedAt) := by
  unfold Guarded.finish
  have hsettled := CircuitBreaker.settled breaker clock ending guarded.held
  generalize breaker.settle clock ending guarded.held = held at hsettled ⊢
  cases hsettled with
  | closed hsucceeds =>
      have hstate := ok hsucceeds
      rw [h] at hstate
      simp at hstate
  | tripped _ state openedAt => exact ⟨state, .inl openedAt⟩
  | counted | kept => exact ⟨h, .inr rfl⟩

theorem Windowed.elapsed {clock : ℚ} (h : Windowed breaker t guarded) (ontime : OnTime breaker guarded clock)
    (later : guarded.now ≤ clock) (ok : guarded.admits breaker clock = true) : t + breaker.resetTimeout ≤ clock := by
  cases h.2 with
  | inr hpassed => exact hpassed.trans later
  | inl hopened =>
      have hadmitted := CircuitBreaker.admitted ok
      generalize (breaker.admitCall clock guarded.held).2 = held at hadmitted
      cases hadmitted with
      | elapsed state helapsed => linarith [hopened.2, ontime state (of_decide_eq_true helapsed)]
      | closed state | unprobed state =>
          rw [state] at hopened
          cases hopened.1

theorem Windowed.finish {id : Nat} {clock : ℚ} {ending : Ending} (h : Windowed breaker t guarded)
    (ok : KeepsWindow breaker guarded (.finish id clock ending)) (later : guarded.now ≤ clock) :
    Windowed breaker t (guarded.finish breaker id clock ending) := by
  refine ⟨h.1.trans later, ?_⟩
  cases h.2 with
  | inr hpassed => exact .inr (hpassed.trans later)
  | inl hopened =>
      obtain ⟨state, openedAt⟩ := finish_opened hopened.1 ok
      refine .inl ⟨state, ?_⟩
      cases openedAt with
      | inl hnew =>
          rw [hnew]
          exact h.1.trans later
      | inr hold =>
          rw [hold]
          exact hopened.2

theorem Windowed.step (h : Windowed breaker t guarded) (ok : KeepsWindow breaker guarded event)
    (hstep : Guarded.step breaker guarded event = some after) : Windowed breaker t after := by
  cases steps hstep with
  | admitted later hadmits => exact ⟨h.1.trans later, .inr (h.elapsed ok later hadmits)⟩
  | rejected later => exact ⟨h.1.trans later, h.2.imp_right fun hpassed => hpassed.trans later⟩
  | finished later running => exact h.finish ok later

-- Until a call is let through again the circuit stays open.
def Unbroken (issued : Nat) (guarded : Guarded) : Prop :=
  issued ≤ guarded.issued ∧ (guarded.issued = issued → guarded.held.state = .opened)

theorem Unbroken.step {issued : Nat} (h : Unbroken issued guarded) (ok : KeepsWindow breaker guarded event)
    (hstep : Guarded.step breaker guarded event = some after) : Unbroken issued after := by
  cases steps hstep with
  | admitted later hadmits =>
      refine ⟨Nat.le_succ_of_le h.1, ?_⟩
      intro heq
      have hle := h.1
      change guarded.issued + 1 = issued at heq
      omega
  | rejected later => exact h
  | finished => exact ⟨h.1, fun heq => (finish_opened (h.2 heq) ok).1⟩

-- The half-open circuit waits for the call `id`, its probe.
def Awaits (id : Nat) (guarded : Guarded) : Prop :=
  id < guarded.issued ∧ (id ∈ guarded.calls.map Call.id →
    guarded.held.state = .halfOpen ∧ guarded.held.probing = true ∧ id + 1 = guarded.issued)

theorem Awaits.admits {id : Nat} (h : Awaits id guarded) (hid : id ∈ guarded.calls.map Call.id)
    (clock : ℚ) : guarded.admits breaker clock = false := by
  obtain ⟨hstate, hprobing, -⟩ := h.2 hid
  unfold Guarded.admits
  rw [CircuitBreaker.admitCall_halfOpen hstate, if_pos hprobing]

theorem Awaits.step {id : Nat} (h : Awaits id guarded)
    (ok : KeepsWindow breaker guarded event ∧ ¬Trips breaker guarded event)
    (hstep : Guarded.step breaker guarded event = some after) : Awaits id after := by
  cases steps hstep with
  | admitted later hadmits =>
      refine ⟨Nat.lt_succ_of_lt h.1, ?_⟩
      intro hid
      obtain ⟨call, hcall, heq⟩ := List.mem_map.mp hid
      cases mem_started hcall with
      | inl hold =>
          rw [h.admits (List.mem_map.mpr ⟨call, hold, heq⟩)] at hadmits
          cases hadmits
      | inr hnew =>
          rw [hnew] at heq
          exact absurd heq (Nat.ne_of_gt h.1)
  | rejected later => exact h
  | @finished other clock ending later running =>
      refine ⟨h.1, ?_⟩
      intro hid
      obtain ⟨call, hcall, heq⟩ := List.mem_map.mp hid
      obtain ⟨hmem, hne⟩ := mem_finish.mp hcall
      obtain ⟨hstate, hprobing, hlast⟩ := h.2 (List.mem_map.mpr ⟨call, hmem, heq⟩)
      unfold Guarded.finish
      have hsettled := CircuitBreaker.settled breaker clock ending guarded.held
      generalize breaker.settle clock ending guarded.held = held at hsettled ⊢
      cases hsettled with
      | closed hsucceeds =>
          cases ok.1 hsucceeds with
          | inl hclosed =>
              rw [hstate] at hclosed
              cases hclosed
          | inr hprobe =>
              have hother := hprobe.2
              omega
      | tripped htrips => exact absurd htrips ok.2
      | counted _ hhalf => exact absurd hstate hhalf
      | kept => exact ⟨hstate, hprobing, hlast⟩

-- The call admitted first after a trip, through an open circuit, is its probe.
theorem started_opened {clock : ℚ} (h : guarded.held.state = .opened) (ok : guarded.admits breaker clock = true) :
    (guarded.started breaker clock).calls = guarded.calls ++ [⟨guarded.issued, true⟩] ∧
      Awaits guarded.issued (guarded.started breaker clock) := by
  unfold Guarded.started
  have hadmitted := CircuitBreaker.admitted ok
  generalize (breaker.admitCall clock guarded.held).2 = held at hadmitted ⊢
  cases hadmitted with
  | elapsed => exact ⟨rfl, Nat.lt_succ_self _, fun _ => ⟨rfl, rfl, rfl⟩⟩
  | closed state | unprobed state =>
      rw [h] at state
      cases state

theorem finish_trips {id : Nat} {ending : Ending} (htrips : breaker.trips ending guarded.held = true)
    (hstep : step breaker guarded (.finish id t ending) = some after) :
    Windowed breaker t after ∧ Unbroken after.issued after := by
  cases steps hstep with
  | finished =>
      obtain ⟨state, openedAt, -⟩ := CircuitBreaker.settle_trip htrips
      exact ⟨⟨le_rfl, .inl ⟨state, openedAt.ge⟩⟩, le_rfl, fun _ => state⟩

-- A circuit that trips at `t` lets no call through before `t + resetTimeout`, and
-- the first it lets through then is the only one until it ends or trips it again.
theorem window_kept {t : ℚ} {before tripped guarded : Guarded} {id : Nat} {ending : Ending}
    (htrips : breaker.trips ending before.held = true)
    (hstep : step breaker before (.finish id t ending) = some tripped)
    (hrun : Reaches (step breaker) (KeepsWindow breaker) tripped guarded) {clock : ℚ} {after : Guarded}
    (hadmits : guarded.admits breaker clock = true) (hontime : KeepsWindow breaker guarded (.start clock))
    (hstart : step breaker guarded (.start clock) = some after) :
    t + breaker.resetTimeout ≤ clock ∧
      (guarded.issued = tripped.issued →
        after.calls = guarded.calls ++ [⟨guarded.issued, true⟩] ∧
          ∀ last, Reaches (step breaker) (fun s e => KeepsWindow breaker s e ∧ ¬Trips breaker s e) after last →
            guarded.issued ∈ last.calls.map Call.id → ∀ reading, last.admits breaker reading = false) := by
  obtain ⟨hwindowed, hunbroken⟩ := finish_trips htrips hstep
  have hwindow : Windowed breaker t guarded :=
    hrun.invariant hwindowed fun _ _ _ hs ok hnext => hs.step ok hnext
  have hopen : Unbroken tripped.issued guarded :=
    hrun.invariant hunbroken fun _ _ _ hs ok hnext => hs.step ok hnext
  cases steps hstart with
  | rejected _ no =>
      rw [no] at hadmits
      cases hadmits
  | admitted later ok =>
      refine ⟨hwindow.elapsed hontime later ok, ?_⟩
      intro hfirst
      obtain ⟨hcalls, hawaits⟩ := started_opened (hopen.2 hfirst) ok
      refine ⟨hcalls, ?_⟩
      intro last hlast hrunning reading
      have hkept : Awaits guarded.issued last :=
        hlast.invariant hawaits fun _ _ _ hs ok hnext => hs.step ok hnext
      exact hkept.admits hrunning reading

theorem window_kept_probe :
    let breaker : CircuitBreaker := { failureThreshold := 1 }
    let tripped := (Guarded.started breaker {} 0).finish breaker 0 1 (.raised ⟨.valueError, []⟩)
    (1 : ℚ) + breaker.resetTimeout ≤ 31 ∧ (tripped.started breaker 31).calls = [⟨1, true⟩] ∧
      ∀ last, Reaches (step breaker) (fun s e => KeepsWindow breaker s e ∧ ¬Trips breaker s e)
        (tripped.started breaker 31) last → 1 ∈ last.calls.map Call.id →
          ∀ reading, last.admits breaker reading = false := by
  intro breaker tripped
  have hlater : (0 : ℚ) ≤ 1 := by decide
  have htrips : breaker.trips (.raised ⟨.valueError, []⟩) (Guarded.started breaker {} 0).held = true := by
    decide +kernel
  have hadmits : tripped.admits breaker 31 = true := by decide +kernel
  have hstart : step breaker tripped (.start 31) = some (tripped.started breaker 31) :=
    step_start (by decide +kernel) hadmits
  have h := window_kept htrips (step_finish hlater (by decide)) .refl hadmits (onTime_exact rfl _ _) hstart
  exact ⟨h.1, h.2 rfl⟩

-- A call let through before the trip closes the circuit within its window.
theorem not_window_kept : ¬∀ (breaker : CircuitBreaker) (before tripped guarded : Guarded) (id : Nat) (t : ℚ)
    (ending : Ending), Reaches (step breaker) (fun _ _ => True) {} before →
      breaker.trips ending before.held = true → step breaker before (.finish id t ending) = some tripped →
        Reaches (step breaker) (fun _ _ => True) tripped guarded → ∀ clock, guarded.now ≤ clock →
          guarded.admits breaker clock = true → t + breaker.resetTimeout ≤ clock := by
  intro h
  let breaker : CircuitBreaker := { failureThreshold := 1 }
  let before := (Guarded.started breaker {} 0).started breaker 0
  let tripped := before.finish breaker 0 1 (.raised ⟨.valueError, []⟩)
  let closed := tripped.finish breaker 1 2 (.answered (Result.ok none))
  have hbefore : Reaches (step breaker) (fun _ _ => True) {} before :=
    .next (.next .refl trivial (step_start le_rfl rfl)) trivial (step_start le_rfl rfl)
  have hclosed : Reaches (step breaker) (fun _ _ => True) tripped closed :=
    .next .refl trivial (step_finish (by decide +kernel) (by decide))
  have hle := h breaker before tripped closed 0 1 (.raised ⟨.valueError, []⟩) hbefore (by decide +kernel)
    (step_finish (by decide +kernel) (by decide)) hclosed 3 (by decide +kernel) rfl
  exact absurd hle (by decide +kernel)

end Guarded

end Window

section Probe

namespace Guarded

variable (breaker : CircuitBreaker)

-- While the circuit is half-open its probe ends with an outcome that is recorded,
-- and no other call does.
def ResolvedByProbe (guarded : Guarded) : BreakerEvent → Prop
  | .start _ => True
  | .finish id _ ending => guarded.held.state = .halfOpen →
      (id + 1 = guarded.issued ↔ breaker.succeeds ending = true ∨ breaker.fails ending = true)

variable {breaker} {guarded after : Guarded} {event : BreakerEvent}

-- A half-open circuit has one probe, any other none.
structure Probed (guarded : Guarded) : Prop where
  ordered : Ordered guarded
  only : ∀ call ∈ guarded.calls, call.probe = true →
    guarded.held.state = .halfOpen ∧ call.id + 1 = guarded.issued
  running : guarded.held.state = .halfOpen → ∃ call ∈ guarded.calls, call.probe = true

theorem probed_start (first : ℚ) : Probed { now := first } where
  ordered := ordered_start first
  only := fun _ h => nomatch h
  running := fun h => nomatch h

theorem Probed.started {clock : ℚ} (h : Probed guarded) (ok : guarded.admits breaker clock = true) :
    Probed (guarded.started breaker clock) := by
  have hordered := h.ordered.started ok
  have hmem : ∀ call ∈ (guarded.started breaker clock).calls, _ := fun call => mem_started
  have hnew : (⟨guarded.issued, (breaker.admitCall clock guarded.held).2.state = .halfOpen⟩ : Call) ∈
      (guarded.started breaker clock).calls := List.mem_append_right _ List.mem_cons_self
  refine ⟨hordered, ?_, ?_⟩
  · intro call hcall hprobe
    show (breaker.admitCall clock guarded.held).2.state = .halfOpen ∧ call.id + 1 = guarded.issued + 1
    cases hmem call hcall with
    | inr heq =>
        rw [heq] at hprobe ⊢
        exact ⟨of_decide_eq_true hprobe, rfl⟩
    | inl hold =>
        obtain ⟨hhalf, -⟩ := h.only call hold hprobe
        have hno : guarded.admits breaker clock = false := by
          unfold admits
          rw [CircuitBreaker.admitCall_halfOpen hhalf, if_pos (h.ordered.probing hhalf)]
        rw [hno] at ok
        cases ok
  · intro hhalf
    exact ⟨_, hnew, decide_eq_true hhalf⟩

theorem Probed.finish {id : Nat} {clock : ℚ} {ending : Ending} (h : Probed guarded)
    (ok : ResolvedByProbe breaker guarded (.finish id clock ending)) :
    Probed (guarded.finish breaker id clock ending) := by
  refine ⟨h.ordered.finish, ?_, ?_⟩
  · intro call hcall hprobe
    obtain ⟨hold, hne⟩ := mem_finish.mp hcall
    obtain ⟨hhalf, hlast⟩ := h.only call hold hprobe
    have hother : ¬id + 1 = guarded.issued := by omega
    obtain ⟨hs, hf⟩ := not_or.mp ((not_congr (ok hhalf)).mp hother)
    show (breaker.settle clock ending guarded.held).state = .halfOpen ∧ call.id + 1 = guarded.issued
    rw [CircuitBreaker.settle_cancelled (Bool.eq_false_iff.mpr hs) (Bool.eq_false_iff.mpr hf)]
    exact ⟨hhalf, hlast⟩
  · intro hafter
    obtain ⟨hhalf, hunrecorded⟩ := (CircuitBreaker.settled breaker clock ending guarded.held).unrecorded hafter
    obtain ⟨call, hold, hprobe⟩ := h.running hhalf
    have hlast := (h.only call hold hprobe).2
    have hother : ¬id + 1 = guarded.issued := (not_congr (ok hhalf)).mpr hunrecorded
    have hne : call.id ≠ id := by omega
    exact ⟨call, mem_finish.mpr ⟨hold, hne⟩, hprobe⟩

theorem Probed.step (h : Probed guarded) (ok : ResolvedByProbe breaker guarded event)
    (hstep : Guarded.step breaker guarded event = some after) : Probed after := by
  cases steps hstep with
  | admitted later hadmits => exact h.started hadmits
  | rejected => exact ⟨h.ordered.step hstep, h.only, h.running⟩
  | finished => exact h.finish ok

theorem Probed.unique (h : Probed guarded) : guarded.calls.countP Call.probe ≤ 1 := by
  have hsame : guarded.calls.countP Call.probe ≤
      guarded.calls.countP ((· == guarded.issued - 1) ∘ Call.id) := by
    apply List.countP_mono_left
    intro call hcall hprobe
    have hlast := (h.only call hcall hprobe).2
    rw [Function.comp_apply, beq_iff_eq]
    omega
  calc guarded.calls.countP Call.probe
      ≤ guarded.calls.countP ((· == guarded.issued - 1) ∘ Call.id) := hsame
    _ = (guarded.calls.map Call.id).count (guarded.issued - 1) := by
        rw [List.count_eq_countP, List.countP_map]
    _ ≤ 1 := List.nodup_iff_count_le_one.mp h.ordered.distinct _

-- With every call done the circuit is closed, or open until its window has passed.
theorem Probed.quiet (h : Probed guarded) (hdone : guarded.calls = []) {clock : ℚ}
    (helapsed : guarded.held.openedAt + breaker.resetTimeout ≤ clock) : guarded.admits breaker clock = true := by
  cases hadmits : guarded.admits breaker clock with
  | true => rfl
  | false =>
      cases (CircuitBreaker.rejected hadmits).2 with
      | inl hopened => exact absurd helapsed (not_le.mpr hopened.2)
      | inr hhalf =>
          obtain ⟨call, hcall, -⟩ := h.running hhalf.1
          rw [hdone] at hcall
          cases hcall

-- A half-open circuit has one probe in flight, and once every call is done the
-- next after the window is let through.
theorem probe_resolves {first : ℚ}
    (hrun : Reaches (step breaker) (ResolvedByProbe breaker) { now := first } guarded) :
    guarded.calls.countP Call.probe ≤ 1 ∧
      (guarded.held.state = .halfOpen → guarded.held.probing = true → ∃ call ∈ guarded.calls, call.probe = true) ∧
      (guarded.calls = [] → ∀ clock, guarded.held.openedAt + breaker.resetTimeout ≤ clock →
        guarded.admits breaker clock = true) := by
  have h : Probed guarded := hrun.invariant (probed_start first) fun _ _ _ hs ok hstep => hs.step ok hstep
  exact ⟨h.unique, fun hhalf _ => h.running hhalf, fun hdone _ helapsed => h.quiet hdone helapsed⟩

theorem probe_resolves_failed :
    let breaker : CircuitBreaker := { failureThreshold := 1 }
    let tripped := (Guarded.started breaker {} 0).finish breaker 0 1 (.raised ⟨.valueError, []⟩)
    let probed := (tripped.started breaker 31)
    probed.calls.countP Call.probe ≤ 1 ∧
      (probed.held.state = .halfOpen → probed.held.probing = true → ∃ call ∈ probed.calls, call.probe = true) ∧
      (probed.calls = [] → ∀ clock, probed.held.openedAt + breaker.resetTimeout ≤ clock →
        probed.admits breaker clock = true) := by
  intro breaker tripped probed
  have hstarts : ∀ guarded clock, ResolvedByProbe breaker guarded (.start clock) := fun _ _ => trivial
  have hfails : ResolvedByProbe breaker (Guarded.started breaker {} 0)
      (.finish 0 1 (.raised ⟨.valueError, []⟩)) := by
    intro hhalf
    cases hhalf
  have hone : Reaches (step breaker) (ResolvedByProbe breaker) {} (Guarded.started breaker {} 0) :=
    .next .refl (hstarts _ _) (step_start le_rfl rfl)
  have htripped : Reaches (step breaker) (ResolvedByProbe breaker) {} tripped :=
    .next hone hfails (step_finish (by decide +kernel) (by decide))
  exact probe_resolves (.next htripped (hstarts _ _) (step_start (by decide +kernel) (by decide +kernel)))

-- A cancelled probe leaves the circuit half-open for good.
theorem not_probe_resolves : ¬∀ (breaker : CircuitBreaker) (guarded : Guarded),
    Reaches (step breaker) (fun _ _ => True) {} guarded → guarded.calls = [] →
      ∀ clock, guarded.now ≤ clock → guarded.held.openedAt + breaker.resetTimeout ≤ clock →
        guarded.admits breaker clock = true := by
  intro h
  let breaker : CircuitBreaker := { failureThreshold := 1 }
  let tripped := (Guarded.started breaker {} 0).finish breaker 0 1 (.raised ⟨.valueError, []⟩)
  let cancelled := (tripped.started breaker 31).finish breaker 1 32 (.raised ⟨.baseException "CancelledError", []⟩)
  have htripped : Reaches (step breaker) (fun _ _ => True) {} tripped :=
    .next (.next .refl trivial (step_start le_rfl rfl)) trivial (step_finish (by decide +kernel) (by decide))
  have hcancelled : Reaches (step breaker) (fun _ _ => True) {} cancelled :=
    .next (.next htripped trivial (step_start (by decide +kernel) (by decide +kernel))) trivial
      (step_finish (by decide +kernel) (by decide))
  have hadmits := h breaker cancelled hcancelled rfl 1000 (by decide +kernel) (by decide +kernel)
  exact absurd hadmits (by decide +kernel)

end Guarded

end Probe

end Benzene.Resilience
