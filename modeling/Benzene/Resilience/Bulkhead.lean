import Benzene.Data.Transition
import Benzene.Resilience.Breaker

namespace Benzene.Resilience.Bulkhead

open Benzene.Data Benzene.Data.Transition

variable (bulkhead : Bulkhead)

section Calls

-- Where one call of `execute` is.
inductive Phase
  | shed
  | queued
  | running
  | done (ending : Ending)

-- The calls in the order they arrived, and the counter of the semaphore.
structure Admissions where
  inFlight : Int
  slots : Nat
  calls : List Phase

inductive Event
  | arrive
  | acquire (id : Nat)
  | leave (id : Nat) (ending : Ending)
  | abandon (id : Nat) (error : PyError)

-- The constructor's `max(1, max_concurrency)`.
def concurrency : Nat := (max 1 bulkhead.maxConcurrency).toNat

def queueLength : Nat := (max 0 bulkhead.maxQueue).toNat

def start : Admissions := ⟨0, bulkhead.concurrency, []⟩

-- The stretches of `execute` between its awaits. A call is admitted or shed before it first
-- waits. A call that leaves frees its slot and then its place, however it ends; one that is
-- cancelled while it waits has no slot.
def step (s : Admissions) : Event → Option Admissions
  | .arrive =>
      if bulkhead.capacity ≤ s.inFlight then some { s with calls := s.calls ++ [.shed] }
      else some { s with inFlight := s.inFlight + 1, calls := s.calls ++ [.queued] }
  | .acquire id =>
      match s.calls[id]?, s.slots with
      | some .queued, slots + 1 => some { s with slots := slots, calls := s.calls.set id .running }
      | _, _ => none
  | .leave id ending =>
      match s.calls[id]? with
      | some .running => some ⟨s.inFlight - 1, s.slots + 1, s.calls.set id (.done ending)⟩
      | _ => none
  | .abandon id error =>
      match s.calls[id]? with
      | some .queued => some { s with inFlight := s.inFlight - 1, calls := s.calls.set id (.done (.raised error)) }
      | _ => none

inductive Steps (s : Admissions) : Event → Admissions → Prop
  | shed (full : bulkhead.capacity ≤ s.inFlight) :
      Steps s .arrive { s with calls := s.calls ++ [.shed] }
  | admitted (free : s.inFlight < bulkhead.capacity) :
      Steps s .arrive { s with inFlight := s.inFlight + 1, calls := s.calls ++ [.queued] }
  | acquired {id slots : Nat} (waits : s.calls[id]? = some .queued) (free : s.slots = slots + 1) :
      Steps s (.acquire id) { s with slots := slots, calls := s.calls.set id .running }
  | left {id : Nat} {ending : Ending} (runs : s.calls[id]? = some .running) :
      Steps s (.leave id ending) ⟨s.inFlight - 1, s.slots + 1, s.calls.set id (.done ending)⟩
  | abandoned {id : Nat} {error : PyError} (waits : s.calls[id]? = some .queued) :
      Steps s (.abandon id error)
        { s with inFlight := s.inFlight - 1, calls := s.calls.set id (.done (.raised error)) }

variable {bulkhead}

theorem steps {s t : Admissions} {event : Event} (h : step bulkhead s event = some t) :
    Steps bulkhead s event t := by
  cases event with
  | arrive =>
      rw [step] at h
      by_cases hfull : bulkhead.capacity ≤ s.inFlight
      · rw [if_pos hfull] at h
        cases h
        exact .shed hfull
      · rw [if_neg hfull] at h
        cases h
        exact .admitted (not_le.mp hfull)
  | acquire id =>
      simp only [step] at h
      split at h
      · rename_i hcall hslots
        cases h
        exact .acquired hcall hslots
      · cases h
  | leave id ending =>
      simp only [step] at h
      split at h
      · cases h
        exact .left (by assumption)
      · cases h
  | abandon id error =>
      simp only [step] at h
      split at h
      · cases h
        exact .abandoned (by assumption)
      · cases h

end Calls

section Counting

def Phase.isRunning : Phase → Bool
  | .running => true
  | _ => false

def Phase.isQueued : Phase → Bool
  | .queued => true
  | _ => false

-- Admitted and not returned.
def Phase.isAdmitted (phase : Phase) : Bool := phase.isRunning || phase.isQueued

namespace Admissions

def running (s : Admissions) : Nat := s.calls.countP Phase.isRunning

def queued (s : Admissions) : Nat := s.calls.countP Phase.isQueued

def admitted (s : Admissions) : Nat := s.calls.countP Phase.isAdmitted

theorem admitted_eq (s : Admissions) : s.admitted = s.running + s.queued := by
  unfold admitted running queued
  induction s.calls with
  | nil => rfl
  | cons call rest ih =>
      simp only [List.countP_cons, ih]
      cases call <;> simp [Phase.isAdmitted, Phase.isRunning, Phase.isQueued] <;> omega

end Admissions

-- What counting says once one call has changed its phase.
theorem countP_set (p : Phase → Bool) {calls : List Phase} {id : Nat} {old : Phase} (new : Phase)
    (h : calls[id]? = some old) :
    (calls.set id new).countP p + (if p old then 1 else 0) = calls.countP p + if p new then 1 else 0 := by
  obtain ⟨hlt, hget⟩ := List.getElem?_eq_some_iff.mp h
  have hmem : old ∈ calls := List.mem_of_getElem? h
  have hle : (if p old then 1 else 0) ≤ calls.countP p := by
    split
    · exact List.countP_pos_iff.mpr ⟨old, hmem, ‹_›⟩
    · omega
  rw [List.countP_set hlt, hget]
  omega

end Counting

section Invariant

-- A slot is free or a running call has it, and a place is taken by whoever is admitted.
structure Sound (s : Admissions) : Prop where
  slots : s.running + s.slots = bulkhead.concurrency
  inFlight : s.inFlight = s.running + s.queued
  bounded : s.inFlight ≤ bulkhead.capacity

theorem sound_start : Sound bulkhead (start bulkhead) := by
  constructor
  · exact Nat.zero_add _
  · rfl
  · show (0 : Int) ≤ bulkhead.capacity
    unfold Bulkhead.capacity
    omega

variable {bulkhead}

theorem Sound.step {s t : Admissions} {event : Event} (h : Sound bulkhead s)
    (hstep : step bulkhead s event = some t) : Sound bulkhead t := by
  obtain ⟨hslots, hinFlight, hbounded⟩ := h
  simp only [Admissions.running] at hslots
  simp only [Admissions.running, Admissions.queued] at hinFlight
  cases steps hstep with
  | shed full =>
      refine ⟨?_, ?_, hbounded⟩
      · simp only [Admissions.running, List.countP_append, List.countP_singleton, Phase.isRunning,
          if_false, Bool.false_eq_true]
        exact hslots
      · simp only [Admissions.running, Admissions.queued, List.countP_append, List.countP_singleton,
          Phase.isRunning, Phase.isQueued, if_false, Bool.false_eq_true]
        exact hinFlight
  | admitted free =>
      refine ⟨?_, ?_, ?_⟩
      · simp only [Admissions.running, List.countP_append, List.countP_singleton, Phase.isRunning,
          if_false, Bool.false_eq_true]
        exact hslots
      · simp only [Admissions.running, Admissions.queued, List.countP_append, List.countP_singleton,
          Phase.isRunning, Phase.isQueued, if_true, if_false, Bool.false_eq_true]
        omega
      · show s.inFlight + 1 ≤ bulkhead.capacity
        omega
  | acquired waits free =>
      have hrunning := countP_set Phase.isRunning .running waits
      have hqueued := countP_set Phase.isQueued .running waits
      simp only [Phase.isRunning, Phase.isQueued, if_true, if_false, Bool.false_eq_true] at hrunning hqueued
      refine ⟨?_, ?_, hbounded⟩
      · simp only [Admissions.running]
        omega
      · simp only [Admissions.running, Admissions.queued]
        omega
  | @left id ending runs =>
      have hrunning := countP_set Phase.isRunning (.done ending) runs
      have hqueued := countP_set Phase.isQueued (.done ending) runs
      simp only [Phase.isRunning, Phase.isQueued, if_true, if_false, Bool.false_eq_true] at hrunning hqueued
      refine ⟨?_, ?_, ?_⟩
      · simp only [Admissions.running]
        omega
      · simp only [Admissions.running, Admissions.queued]
        omega
      · show s.inFlight - 1 ≤ bulkhead.capacity
        omega
  | @abandoned id error waits =>
      have hrunning := countP_set Phase.isRunning (.done (.raised error)) waits
      have hqueued := countP_set Phase.isQueued (.done (.raised error)) waits
      simp only [Phase.isRunning, Phase.isQueued, if_true, if_false, Bool.false_eq_true] at hrunning hqueued
      refine ⟨?_, ?_, ?_⟩
      · simp only [Admissions.running]
        omega
      · simp only [Admissions.running, Admissions.queued]
        omega
      · show s.inFlight - 1 ≤ bulkhead.capacity
        omega

theorem sound_of_reaches {allowed : Admissions → Event → Prop} {s : Admissions}
    (h : Reaches (step bulkhead) allowed (start bulkhead) s) : Sound bulkhead s :=
  h.invariant (sound_start bulkhead) fun _ _ _ hs _ hstep => hs.step hstep

end Invariant

section Bounds

-- Nobody is over-admitted in any run, and no place and no slot is lost.
theorem bulkhead_bounded {s : Admissions}
    (h : Reaches (step bulkhead) (fun _ _ => True) (start bulkhead) s) :
    (s.running : Int) ≤ max 1 bulkhead.maxConcurrency ∧
    s.inFlight = s.admitted ∧
    s.inFlight ≤ max 1 bulkhead.maxConcurrency + max 0 bulkhead.maxQueue ∧
    (∃ t phase, step bulkhead s .arrive = some t ∧ t.calls = s.calls ++ [phase] ∧
      (phase = .shed ↔ s.inFlight = max 1 bulkhead.maxConcurrency + max 0 bulkhead.maxQueue)) ∧
    ((∀ phase ∈ s.calls, phase.isAdmitted = false) →
      s.inFlight = 0 ∧ (s.slots : Int) = max 1 bulkhead.maxConcurrency) := by
  obtain ⟨hslots, hinFlight, hbounded⟩ := sound_of_reaches h
  have hadmitted := s.admitted_eq
  have hconcurrency : (bulkhead.concurrency : Int) = max 1 bulkhead.maxConcurrency := by
    unfold concurrency
    omega
  refine ⟨?_, ?_, hbounded, ?_, ?_⟩
  · omega
  · omega
  · by_cases hfull : bulkhead.capacity ≤ s.inFlight
    · refine ⟨_, .shed, if_pos hfull, rfl, ?_⟩
      exact iff_of_true rfl (le_antisymm hbounded hfull)
    · refine ⟨_, .queued, if_neg hfull, rfl, ?_⟩
      exact iff_of_false (by simp) fun he => hfull (le_of_eq he.symm)
  · intro hdone
    have hnone : s.admitted = 0 := by
      apply List.countP_eq_zero.mpr
      intro phase hphase
      simp [hdone phase hphase]
    omega

-- Two calls for one slot and one place to wait in, and a third that is shed.
theorem bulkhead_bounded_three :
    let s : Admissions := ⟨2, 0, [.running, .queued, .shed]⟩
    (s.running : Int) ≤ 1 ∧ s.inFlight = s.admitted := by
  have hreaches : Reaches (step ⟨1, 1⟩) (fun _ _ => True) (start ⟨1, 1⟩) ⟨2, 0, [.running, .queued, .shed]⟩ :=
    Reaches.next (a := .arrive) (Reaches.next (a := .arrive) (Reaches.next (a := .acquire 0)
      (Reaches.next (a := .arrive) .refl trivial rfl) trivial rfl) trivial rfl) trivial rfl
  have h := bulkhead_bounded ⟨1, 1⟩ hreaches
  exact ⟨h.1, h.2.1⟩

end Bounds

end Benzene.Resilience.Bulkhead
