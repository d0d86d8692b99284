import Benzene.Resilience.Policies
import Mathlib.Order.Bounds.Basic
import Mathlib.Tactic.Linarith
import Mathlib.Tactic.Ring

namespace Benzene.Resilience

open Benzene.Data

section Uses

-- A call through the limiter, or a look at its tokens.
inductive Use
  | execute
  | available
deriving DecidableEq

inductive Outcome
  | admitted
  | rejected
  | tokens (count : ℚ)
deriving DecidableEq

namespace RateLimiter

variable (limiter : RateLimiter)

def ceiling : ℚ := max 1 limiter.burst

-- The bucket as it is built: full.
def start (now : ℚ) : Bucket := ⟨limiter.ceiling, now⟩

def available (now : ℚ) (bucket : Bucket) : ℚ × Bucket :=
  let bucket := limiter.refill now bucket
  (bucket.tokens, bucket)

-- One use at a reading of the clock.
def use (bucket : Bucket) (call : Use × ℚ) : Outcome × Bucket :=
  match call.1 with
  | .execute =>
      let (acquired, bucket) := limiter.tryAcquire call.2 bucket
      (if acquired then .admitted else .rejected, bucket)
  | .available =>
      let (count, bucket) := limiter.available call.2 bucket
      (.tokens count, bucket)

def after (bucket : Bucket) (calls : List (Use × ℚ)) : Bucket :=
  calls.foldl (fun bucket call => (limiter.use bucket call).2) bucket

-- What each use got, by its reading.
def outcomes (bucket : Bucket) : List (Use × ℚ) → List (ℚ × Outcome)
  | [] => []
  | call :: rest => (call.2, (limiter.use bucket call).1) :: outcomes (limiter.use bucket call).2 rest

theorem outcomes_append (bucket : Bucket) (first rest : List (Use × ℚ)) :
    limiter.outcomes bucket (first ++ rest) =
      limiter.outcomes bucket first ++ limiter.outcomes (limiter.after bucket first) rest := by
  induction first generalizing bucket with
  | nil => rfl
  | cons call first ih =>
      simp only [List.cons_append, outcomes, ih]
      rfl

theorem after_append (bucket : Bucket) (first rest : List (Use × ℚ)) :
    limiter.after bucket (first ++ rest) = limiter.after (limiter.after bucket first) rest :=
  List.foldl_append

end RateLimiter

-- The calls admitted from `s` to `t`.
def admittedIn (trace : List (ℚ × Outcome)) (s t : ℚ) : Nat :=
  trace.countP fun entry => s ≤ entry.1 && entry.1 ≤ t && entry.2 = .admitted

end Uses

section Level

variable {limiter : RateLimiter} {trace : List (ℚ × Outcome)} {now later : ℚ} {bucket : Bucket}

-- What is left of the allowance of the window that opened at `s`.
def headroom (limiter : RateLimiter) (trace : List (ℚ × Outcome)) (s now : ℚ) : ℚ :=
  limiter.ceiling + limiter.refillRate * (now - s) - admittedIn trace s now

-- The tokens are what the tightest window leaves.
structure Level (limiter : RateLimiter) (trace : List (ℚ × Outcome)) (now : ℚ) (bucket : Bucket) : Prop where
  updated : bucket.updatedAt = now
  past : ∀ entry ∈ trace, entry.1 ≤ now
  nonneg : 0 ≤ bucket.tokens
  least : IsLeast {room | ∃ s ≤ now, room = headroom limiter trace s now} bucket.tokens

theorem ceiling_pos (limiter : RateLimiter) : 0 < limiter.ceiling :=
  lt_of_lt_of_le zero_lt_one (le_max_left 1 limiter.burst)

theorem admittedIn_of_past (hpast : ∀ entry ∈ trace, entry.1 ≤ now) (hle : now ≤ later) (s : ℚ) :
    admittedIn trace s later = admittedIn trace s now := by
  refine List.countP_congr fun entry hentry => ?_
  have hnow := hpast entry hentry
  simp [hnow, hnow.trans hle]

theorem admittedIn_eq_zero (hpast : ∀ entry ∈ trace, entry.1 ≤ now) {s : ℚ} (hlt : now < s) (t : ℚ) :
    admittedIn trace s t = 0 := by
  refine List.countP_eq_zero.mpr fun entry hentry => ?_
  have hbefore := (hpast entry hentry).trans_lt hlt
  simp [not_le.mpr hbefore]

theorem admittedIn_append (trace more : List (ℚ × Outcome)) (s t : ℚ) :
    admittedIn (trace ++ more) s t = admittedIn trace s t + admittedIn more s t := List.countP_append

theorem Level.le_ceiling (h : Level limiter trace now bucket) : bucket.tokens ≤ limiter.ceiling := by
  have hnow : bucket.tokens ≤ headroom limiter trace now now := h.least.2 ⟨now, le_rfl, rfl⟩
  have hcount : (0 : ℚ) ≤ admittedIn trace now now := Nat.cast_nonneg _
  rw [headroom, sub_self, mul_zero] at hnow
  linarith

theorem Level.start (limiter : RateLimiter) (now : ℚ) : Level limiter [] now (limiter.start now) := by
  refine ⟨rfl, fun _ hentry => absurd hentry List.not_mem_nil, (ceiling_pos limiter).le, ?_, ?_⟩
  · exact ⟨now, le_rfl, by simp [headroom, admittedIn, RateLimiter.start]⟩
  · rintro room ⟨s, hs, rfl⟩
    have hgained : 0 ≤ limiter.refillRate * (now - s) := mul_nonneg limiter.positive.le (sub_nonneg.mpr hs)
    simp only [headroom, admittedIn, List.countP_nil, Nat.cast_zero, RateLimiter.start]
    linarith

theorem refill_eq (htokens : bucket.tokens ≤ limiter.ceiling) (hle : bucket.updatedAt ≤ later) :
    limiter.refill later bucket =
      ⟨min limiter.ceiling (bucket.tokens + (later - bucket.updatedAt) * limiter.refillRate), later⟩ := by
  rw [RateLimiter.refill]
  split
  · rfl
  · rename_i hnone
    have hsame : bucket.updatedAt = later := le_antisymm hle (by linarith)
    rw [hsame, sub_self, zero_mul, add_zero, min_eq_right htokens, ← hsame]

-- Every window gains as long as it lasts; a new one has the whole ceiling.
theorem Level.refill (h : Level limiter trace now bucket) (hle : now ≤ later) :
    Level limiter trace later (limiter.refill later bucket) := by
  have hpast : ∀ entry ∈ trace, entry.1 ≤ later := fun entry hentry => (h.past entry hentry).trans hle
  have hgained : 0 ≤ (later - now) * limiter.refillRate :=
    mul_nonneg (sub_nonneg.mpr hle) limiter.positive.le
  have hopen (s : ℚ) : headroom limiter trace s later =
      headroom limiter trace s now + (later - now) * limiter.refillRate := by
    rw [headroom, headroom, admittedIn_of_past h.past hle]
    ring
  rw [refill_eq h.le_ceiling (h.updated ▸ hle), h.updated]
  refine ⟨rfl, hpast, le_min (ceiling_pos limiter).le (by linarith [h.nonneg]), ?_, ?_⟩
  · rcases min_choice limiter.ceiling (bucket.tokens + (later - now) * limiter.refillRate) with hmin | hmin
    · rcases hle.lt_or_eq with hlt | rfl
      · refine ⟨later, le_rfl, ?_⟩
        rw [headroom, admittedIn_eq_zero h.past hlt, hmin, sub_self, mul_zero, Nat.cast_zero]
        ring
      · obtain ⟨s, hs, htokens⟩ := h.least.1
        refine ⟨s, hs, ?_⟩
        rw [← htokens, sub_self, zero_mul, add_zero, min_eq_right h.le_ceiling]
    · obtain ⟨s, hs, htokens⟩ := h.least.1
      exact ⟨s, hs.trans hle, by rw [hopen, ← htokens, hmin]⟩
  · rintro room ⟨s, hs, rfl⟩
    rcases le_or_gt s now with hbefore | hafter
    · have hroom : bucket.tokens ≤ headroom limiter trace s now := h.least.2 ⟨s, hbefore, rfl⟩
      refine (min_le_right _ _).trans ?_
      rw [hopen]
      linarith
    · have hlength : 0 ≤ limiter.refillRate * (later - s) :=
        mul_nonneg limiter.positive.le (sub_nonneg.mpr hs)
      refine (min_le_left _ _).trans ?_
      rw [headroom, admittedIn_eq_zero h.past hafter, Nat.cast_zero]
      linarith

theorem Level.admit (h : Level limiter trace now bucket) (htoken : 1 ≤ bucket.tokens) :
    Level limiter (trace ++ [(now, .admitted)]) now { bucket with tokens := bucket.tokens - 1 } := by
  have hspent {s : ℚ} (hs : s ≤ now) : headroom limiter (trace ++ [(now, .admitted)]) s now =
      headroom limiter trace s now - 1 := by
    have hone : admittedIn [(now, Outcome.admitted)] s now = 1 := by simp [admittedIn, hs]
    rw [headroom, headroom, admittedIn_append, hone]
    push_cast
    ring
  refine ⟨h.updated, ?_, sub_nonneg.mpr htoken, ?_, ?_⟩
  · rw [List.forall_mem_append]
    exact ⟨h.past, List.forall_mem_singleton.mpr le_rfl⟩
  · obtain ⟨s, hs, htokens⟩ := h.least.1
    exact ⟨s, hs, by rw [hspent hs, ← htokens]⟩
  · rintro room ⟨s, hs, rfl⟩
    have hroom : bucket.tokens ≤ headroom limiter trace s now := h.least.2 ⟨s, hs, rfl⟩
    rw [hspent hs]
    exact sub_le_sub_right hroom 1

theorem Level.pass (h : Level limiter trace now bucket) {outcome : Outcome} (hnot : outcome ≠ .admitted) :
    Level limiter (trace ++ [(now, outcome)]) now bucket := by
  have hsame (s : ℚ) : headroom limiter (trace ++ [(now, outcome)]) s now = headroom limiter trace s now := by
    have hnone : admittedIn [(now, outcome)] s now = 0 := by simp [admittedIn, hnot]
    rw [headroom, headroom, admittedIn_append, hnone, Nat.add_zero]
  refine ⟨h.updated, ?_, h.nonneg, ?_⟩
  · rw [List.forall_mem_append]
    exact ⟨h.past, List.forall_mem_singleton.mpr le_rfl⟩
  · simp only [hsame]
    exact h.least

theorem Level.use (h : Level limiter trace now bucket) {call : Use × ℚ} (hle : now ≤ call.2) :
    Level limiter (trace ++ [(call.2, (limiter.use bucket call).1)]) call.2 (limiter.use bucket call).2 := by
  obtain ⟨use, later⟩ := call
  have hlevel := h.refill hle
  cases use with
  | execute =>
      rw [RateLimiter.use, RateLimiter.tryAcquire]
      by_cases htoken : 1 ≤ (limiter.refill later bucket).tokens
      · simp only [if_pos htoken]
        exact hlevel.admit htoken
      · simp only [if_neg htoken]
        exact hlevel.pass (by simp)
  | available => exact hlevel.pass (by simp [RateLimiter.use])

end Level

section Runs

variable {limiter : RateLimiter} {start : ℚ}

-- The readings of the clock never go back.
def Timely (start : ℚ) (calls : List (Use × ℚ)) : Prop := (start :: calls.map Prod.snd).Pairwise (· ≤ ·)

def lastReading (start : ℚ) (calls : List (Use × ℚ)) : ℚ := (calls.getLast?.map Prod.snd).getD start

theorem timely_concat {calls : List (Use × ℚ)} {call : Use × ℚ} (h : Timely start (calls ++ [call])) :
    Timely start calls ∧ lastReading start calls ≤ call.2 := by
  rw [Timely, List.map_append, List.map_singleton, ← List.cons_append, List.pairwise_append] at h
  obtain ⟨hbefore, -, hlast⟩ := h
  refine ⟨hbefore, hlast _ ?_ _ (List.mem_singleton.mpr rfl)⟩
  rw [lastReading]
  cases hcalls : calls.getLast? with
  | none => exact List.mem_cons_self
  | some last =>
      exact List.mem_cons_of_mem _ (List.mem_map.mpr ⟨last, List.mem_of_getLast? hcalls, rfl⟩)

theorem level_run {calls : List (Use × ℚ)} (h : Timely start calls) :
    Level limiter (limiter.outcomes (limiter.start start) calls) (lastReading start calls)
      (limiter.after (limiter.start start) calls) := by
  induction calls using List.reverseRecOn with
  | nil => exact Level.start limiter start
  | append_singleton calls call ih =>
      obtain ⟨hbefore, hle⟩ := timely_concat h
      have hlast : lastReading start (calls ++ [call]) = call.2 := by
        rw [lastReading, List.getLast?_concat]
        rfl
      rw [limiter.outcomes_append, limiter.after_append, hlast]
      exact (ih hbefore).use hle

theorem timely_append {before rest : List (Use × ℚ)} (h : Timely start (before ++ rest)) :
    Timely start before := by
  rw [Timely, List.map_append, ← List.cons_append, List.pairwise_append] at h
  exact h.1

-- No window admits more than the ceiling and what it gains.
theorem admittedIn_le {calls : List (Use × ℚ)} (h : Timely start calls) {s t : ℚ} (hst : s ≤ t) :
    (admittedIn (limiter.outcomes (limiter.start start) calls) s t : ℚ) ≤
      limiter.ceiling + limiter.refillRate * (t - s) := by
  have hallowed : 0 ≤ limiter.ceiling + limiter.refillRate * (t - s) :=
    add_nonneg (ceiling_pos limiter).le (mul_nonneg limiter.positive.le (sub_nonneg.mpr hst))
  induction calls using List.reverseRecOn with
  | nil => simpa [RateLimiter.outcomes, admittedIn] using hallowed
  | append_singleton calls call ih =>
      have hlevel := @level_run limiter start _ h
      have hlast : lastReading start (calls ++ [call]) = call.2 := by
        rw [lastReading, List.getLast?_concat]
        rfl
      rw [hlast] at hlevel
      rcases le_or_gt call.2 t with hinside | houtside
      · rw [admittedIn_of_past hlevel.past hinside]
        rcases le_or_gt s call.2 with hopened | hlater
        · have hroom := hlevel.nonneg.trans (hlevel.least.2 ⟨s, hopened, rfl⟩)
          have hlength : limiter.refillRate * (call.2 - s) ≤ limiter.refillRate * (t - s) :=
            mul_le_mul_of_nonneg_left (by linarith) limiter.positive.le
          rw [headroom] at hroom
          linarith
        · rw [admittedIn_eq_zero hlevel.past hlater, Nat.cast_zero]
          exact hallowed
      · have hnone : admittedIn (limiter.outcomes (limiter.after (limiter.start start) calls) [call]) s t = 0 := by
          simp [RateLimiter.outcomes, admittedIn, houtside]
        rw [limiter.outcomes_append, admittedIn_append, hnone, Nat.add_zero]
        exact ih (timely_append h)

end Runs

section Looking

variable {limiter : RateLimiter} {bucket : Bucket} {now later : ℚ}

theorem refill_tokens_le (htokens : bucket.tokens ≤ limiter.ceiling) (hle : bucket.updatedAt ≤ now) :
    (limiter.refill now bucket).tokens ≤ limiter.ceiling := by
  rw [refill_eq htokens hle]
  exact min_le_left _ _

-- Two refills come to one.
theorem refill_refill (htokens : bucket.tokens ≤ limiter.ceiling) (hle : bucket.updatedAt ≤ now)
    (hlater : now ≤ later) :
    limiter.refill later (limiter.refill now bucket) = limiter.refill later bucket := by
  have hgained : 0 ≤ (later - now) * limiter.refillRate :=
    mul_nonneg (sub_nonneg.mpr hlater) limiter.positive.le
  have hboth : (later - bucket.updatedAt) * limiter.refillRate =
      (now - bucket.updatedAt) * limiter.refillRate + (later - now) * limiter.refillRate := by
    ring
  have hfirst := refill_tokens_le htokens hle
  rw [refill_eq htokens hle] at hfirst ⊢
  rw [refill_eq hfirst hlater, refill_eq htokens (hle.trans hlater), hboth, ← add_assoc]
  congr 1
  rcases le_total limiter.ceiling (bucket.tokens + (now - bucket.updatedAt) * limiter.refillRate) with
    hfull | hroom
  · rw [min_eq_left hfull, min_eq_left (by linarith), min_eq_left (by linarith)]
  · rw [min_eq_right hroom]

theorem use_refill (htokens : bucket.tokens ≤ limiter.ceiling) (hle : bucket.updatedAt ≤ now)
    {call : Use × ℚ} (hlater : now ≤ call.2) :
    limiter.use (limiter.refill now bucket) call = limiter.use bucket call := by
  obtain ⟨use, later⟩ := call
  cases use with
  | execute => rw [RateLimiter.use, RateLimiter.use, RateLimiter.tryAcquire, RateLimiter.tryAcquire,
      refill_refill htokens hle hlater]
  | available => rw [RateLimiter.use, RateLimiter.use, RateLimiter.available, RateLimiter.available,
      refill_refill htokens hle hlater]

theorem outcomes_refill (htokens : bucket.tokens ≤ limiter.ceiling) (hle : bucket.updatedAt ≤ now)
    {calls : List (Use × ℚ)} (h : Timely now calls) :
    limiter.outcomes (limiter.refill now bucket) calls = limiter.outcomes bucket calls := by
  cases calls with
  | nil => rfl
  | cons call rest =>
      have hlater : now ≤ call.2 := (List.pairwise_cons.mp h).1 _ List.mem_cons_self
      rw [RateLimiter.outcomes, RateLimiter.outcomes, use_refill htokens hle hlater]

theorem use_bucket (htokens : bucket.tokens ≤ limiter.ceiling) {call : Use × ℚ}
    (hle : bucket.updatedAt ≤ call.2) :
    (limiter.use bucket call).2.tokens ≤ limiter.ceiling ∧ (limiter.use bucket call).2.updatedAt = call.2 := by
  obtain ⟨use, now⟩ := call
  have hfull := refill_tokens_le htokens hle
  have hupdated : (limiter.refill now bucket).updatedAt = now := by rw [refill_eq htokens hle]
  cases use with
  | execute =>
      rw [RateLimiter.use, RateLimiter.tryAcquire]
      by_cases htoken : 1 ≤ (limiter.refill now bucket).tokens
      · simp only [if_pos htoken]
        exact ⟨(sub_le_self _ zero_le_one).trans hfull, hupdated⟩
      · simp only [if_neg htoken]
        exact ⟨hfull, hupdated⟩
  | available => exact ⟨hfull, hupdated⟩

def isCall (entry : ℚ × Outcome) : Bool :=
  match entry.2 with
  | .tokens _ => false
  | _ => true

theorem isCall_execute (now : ℚ) (bucket : Bucket) :
    isCall (now, (limiter.use bucket (.execute, now)).1) = true := by
  rw [RateLimiter.use, RateLimiter.tryAcquire]
  by_cases htoken : 1 ≤ (limiter.refill now bucket).tokens
  · simp only [if_pos htoken]
    rfl
  · simp only [if_neg htoken]
    rfl

-- The calls come out as if nobody had looked.
theorem outcomes_looked {calls : List (Use × ℚ)} (htokens : bucket.tokens ≤ limiter.ceiling)
    (h : Timely bucket.updatedAt calls) :
    (limiter.outcomes bucket calls).filter isCall =
      limiter.outcomes bucket (calls.filter fun call => call.1 = .execute) := by
  induction calls generalizing bucket with
  | nil => rfl
  | cons call rest ih =>
      have hle : bucket.updatedAt ≤ call.2 := (List.pairwise_cons.mp h).1 _ List.mem_cons_self
      obtain ⟨hfull, hupdated⟩ := use_bucket htokens hle
      have hrest : Timely (limiter.use bucket call).2.updatedAt rest := by
        rw [hupdated]
        exact (List.pairwise_cons.mp h).2
      have hlooked := ih hfull hrest
      obtain ⟨use, now⟩ := call
      cases use with
      | execute =>
          rw [RateLimiter.outcomes, List.filter_cons_of_pos (isCall_execute now bucket), hlooked,
            List.filter_cons_of_pos (by simp), RateLimiter.outcomes]
      | available =>
          have hexecuted : Timely now (rest.filter fun call => call.1 = .execute) := by
            have hsorted := (List.pairwise_cons.mp h).2
            exact hsorted.sublist (List.Sublist.cons_cons _ (List.filter_sublist.map _))
          rw [RateLimiter.outcomes, List.filter_cons_of_neg (by simp [isCall, RateLimiter.use]), hlooked,
            List.filter_cons_of_neg (by simp)]
          exact outcomes_refill htokens hle hexecuted

end Looking

section Honours

-- What a limiter promises of a schedule of its uses.
structure RateLimiter.Honours (limiter : RateLimiter) (start : ℚ) (calls : List (Use × ℚ)) : Prop where
  tokens : ∀ before rest, calls = before ++ rest →
    0 ≤ (limiter.after (limiter.start start) before).tokens ∧
      (limiter.after (limiter.start start) before).tokens ≤ max 1 limiter.burst
  window : ∀ s t, s ≤ t → (admittedIn (limiter.outcomes (limiter.start start) calls) s t : ℚ) ≤
    max 1 limiter.burst + limiter.refillRate * (t - s)
  rejected : ∀ before now rest, calls = before ++ (.execute, now) :: rest →
    (limiter.use (limiter.after (limiter.start start) before) (.execute, now)).1 = .rejected →
      (limiter.available now (limiter.after (limiter.start start) before)).1 < 1 ∧
        ∃ s ≤ now, max 1 limiter.burst + limiter.refillRate * (now - s) <
          admittedIn (limiter.outcomes (limiter.start start) before) s now + 1
  looked : (limiter.outcomes (limiter.start start) calls).filter isCall =
    limiter.outcomes (limiter.start start) (calls.filter fun call => call.1 = .execute)

variable {limiter : RateLimiter} {start : ℚ}

theorem rejected_lt {bucket : Bucket} {now : ℚ} (h : (limiter.use bucket (.execute, now)).1 = .rejected) :
    (limiter.refill now bucket).tokens < 1 := by
  by_contra hfull
  rw [RateLimiter.use, RateLimiter.tryAcquire] at h
  simp only [if_pos (not_lt.mp hfull)] at h
  cases h

-- With a burst below one the bucket still holds one token.
theorem honours (limiter : RateLimiter) {start : ℚ} {calls : List (Use × ℚ)} (h : Timely start calls) :
    limiter.Honours start calls := by
  refine ⟨?_, fun s t hst => admittedIn_le h hst, ?_, outcomes_looked le_rfl h⟩
  · rintro before rest rfl
    have hlevel := @level_run limiter start _ (timely_append h)
    exact ⟨hlevel.nonneg, hlevel.le_ceiling⟩
  · rintro before now rest rfl hrejected
    have hcalls : before ++ (Use.execute, now) :: rest = (before ++ [(.execute, now)]) ++ rest := by
      rw [List.append_assoc, List.singleton_append]
    rw [hcalls] at h
    obtain ⟨hbefore, hle⟩ := timely_concat (timely_append h)
    have hlevel := (@level_run limiter start _ hbefore).refill hle
    have hfew := rejected_lt hrejected
    obtain ⟨s, hs, htokens⟩ := hlevel.least.1
    refine ⟨hfew, s, hs, ?_⟩
    rw [htokens, headroom] at hfew
    exact sub_lt_iff_lt_add.mp (by linarith [hfew, show limiter.ceiling = max 1 limiter.burst from rfl])

-- Three calls at once on two tokens, and one when half a token has come back.
def crowd : List (Use × ℚ) :=
  [(.execute, 0), (.execute, 0), (.execute, 0), (.available, 1 / 4), (.execute, 1 / 4), (.execute, 1 / 2)]

def pairLimiter : RateLimiter := ⟨2, 2, by norm_num⟩

theorem timely_crowd : Timely 0 crowd := by
  norm_num [Timely, crowd]

theorem honours_crowd :
    pairLimiter.outcomes (pairLimiter.start 0) crowd =
        [(0, .admitted), (0, .admitted), (0, .rejected), (1 / 4, .tokens (1 / 2)), (1 / 4, .rejected),
          (1 / 2, .admitted)] ∧
      pairLimiter.Honours 0 crowd :=
  ⟨by decide +kernel, honours pairLimiter timely_crowd⟩

def halfLimiter : RateLimiter := ⟨1, 1 / 2, by norm_num⟩

-- A burst of half a token: the bucket holds more, and a call is admitted.
theorem halfLimiter_exceeds :
    0 < halfLimiter.burst ∧ Timely 0 [(.execute, 0)] ∧
      halfLimiter.burst < (halfLimiter.start 0).tokens ∧
      halfLimiter.burst + halfLimiter.refillRate * (0 - 0) <
        admittedIn (halfLimiter.outcomes (halfLimiter.start 0) [(.execute, 0)]) 0 0 := by
  refine ⟨by decide +kernel, ?_, by decide +kernel, by decide +kernel⟩
  norm_num [Timely]

end Honours

end Benzene.Resilience
