import Benzene.Core.Settlement
import Benzene.Resilience.Policies

namespace Benzene.Resilience

open Benzene.Data Benzene.Results Benzene.Core

section Steps

variable {σ : Type}

theorem Held.modify_apply {S : Type} (held : Held σ S) (f : S → S) (state : Context × σ) :
    held.modify f state = (.ok (), (state.1, held.set (f (held.get state.2)) state.2)) := rfl

theorem setResult_apply (result : Result Value) (state : Context × σ) :
    setResult result state = (.ok (), ({ state.1 with result := some result }, state.2)) := rfl

theorem run_ok {next : Step σ Unit} {state after : Context × σ} (h : next state = (.ok (), after)) :
    run next state = (.ok (after.1.result.getD (Result.ok none)), after) := by
  unfold run
  rw [Py.bind_ok h]
  rfl

theorem run_congr {next other : Step σ Unit} {state : Context × σ} (h : next state = other state) :
    run next state = run other state := by
  unfold run
  simp only [Py.bind_apply, h]

theorem tryCatch_ok {α : Type} {body : Step σ α} {handler : PyError → Step σ α}
    {state after : Context × σ} {value : α} (h : body state = (.ok value, after)) :
    Py.tryCatch body handler state = (.ok value, after) := by
  simp only [Py.tryCatch, h]

theorem tryFinally_ok {α : Type} {body : Step σ α} {cleanup : Step σ Unit} {state after last : Context × σ}
    {value : α} (hb : body state = (.ok value, after)) (hc : cleanup after = (.ok (), last)) :
    tryFinally body cleanup state = (.ok value, last) := by
  unfold tryFinally
  rw [Py.bind_ok (tryCatch_ok hb), Py.bind_ok hc]
  rfl

theorem remember_missing (store : IdempotencyStore σ) (rememberWhen : Result Value → Except PyError Bool)
    (key : Json) {state : Context × σ} (h : state.1.result = none) :
    remember store rememberWhen key state = (.ok (), state) := by
  unfold remember
  rw [Py.bind_ok (Py.get_apply _)]
  simp only [h]
  rfl

end Steps

section Layers

-- The interceptions, with their parameters.
inductive Layer (σ : Type)
  | circuitBreaker (policy : CircuitBreaker) (held : Held σ BreakerState) (clock : σ → ℚ)
  | bulkhead (policy : Bulkhead) (held : Held σ Int) (semaphore : Semaphore σ)
  | rateLimit (policy : RateLimiter) (held : Held σ Bucket) (clock : σ → ℚ)
  | idempotency (store : IdempotencyStore σ) (keyHeaders : List Str)
      (rememberWhen : Result Value → Except PyError Bool)

namespace Layer

variable {σ : Type}

def isIdempotency : Layer σ → Bool
  | .idempotency .. => true
  | _ => false

-- A layer that remembers a result without an exception; the others always do.
def Quiet : Layer σ → Prop
  | .idempotency store _ rememberWhen =>
      (∀ result, ∃ remember, rememberWhen result = .ok remember) ∧
        ∀ key result world, (store.put key result world).1 = .ok ()
  | _ => True

variable [UnicodeData]

def interception : Layer σ → Middleware σ
  | .circuitBreaker policy held clock => circuitBreakerInterception policy held clock
  | .bulkhead policy held semaphore => bulkheadInterception policy held semaphore
  | .rateLimit policy held clock => rateLimitInterception policy held clock
  | .idempotency store keyHeaders rememberWhen => Resilience.idempotency store keyHeaders rememberWhen

-- The state in which a layer calls `next`, if it does.
def enter (layer : Layer σ) (state : Context × σ) : Option (Context × σ) :=
  match layer with
  | .circuitBreaker policy held clock =>
      let (admitted, entered) := policy.admitCall (clock state.2) (held.get state.2)
      if admitted then some (state.1, held.set entered state.2) else none
  | .bulkhead policy held semaphore =>
      if policy.capacity ≤ held.get state.2 then none
      else match semaphore.acquire (held.set (held.get state.2 + 1) state.2) with
        | (.ok _, world) => some (state.1, world)
        | (.error _, _) => none
  | .rateLimit policy held clock =>
      let (acquired, bucket) := policy.tryAcquire (clock state.2) (held.get state.2)
      if acquired then some (state.1, held.set bucket state.2) else none
  | .idempotency store keyHeaders _ =>
      match keyOf state.1.headers keyHeaders with
      | none => some state
      | some key =>
          match store.get key state.2 with
          | (.ok none, world) => some (state.1, world)
          | _ => none

end Layer

end Layers

section Entering

variable {σ : Type}

theorem remember_quiet {store : IdempotencyStore σ} {keyHeaders : List Str}
    {rememberWhen : Result Value → Except PyError Bool}
    (hq : (Layer.idempotency store keyHeaders rememberWhen).Quiet) (key : Json) (state : Context × σ) :
    ∃ world, remember store rememberWhen key state = (.ok (), (state.1, world)) := by
  cases hresult : state.1.result with
  | none => exact ⟨state.2, remember_missing store rememberWhen key hresult⟩
  | some result =>
      obtain ⟨stored, hr⟩ := hq.1 result
      have hput := hq.2 key result state.2
      unfold remember
      rw [Py.bind_ok (Py.get_apply _)]
      simp only [hresult]
      rw [hr, Py.lift_ok_bind]
      cases stored with
      | false => exact ⟨state.2, rfl⟩
      | true =>
          have hin : inWorld (store.put key result) state =
              (.ok (), (state.1, (store.put key result state.2).2)) := by
            simp only [inWorld, ← hput]
          exact ⟨_, hin⟩

variable [UnicodeData]

-- A circuit breaker, a bulkhead and a rate limiter leave a result where `next` left none.
theorem circuitBreakerInterception_limit {policy : CircuitBreaker} {held : Held σ BreakerState} {clock : σ → ℚ}
    {next : Step σ Unit} {state entered after : Context × σ}
    (he : (Layer.circuitBreaker policy held clock).enter state = some entered)
    (hn : next entered = (.ok (), after)) :
    ∃ world, circuitBreakerInterception policy held clock next state =
      (.ok (), ({ after.1 with result := some (after.1.result.getD (Result.ok none)) }, world)) := by
  have hrun := run_ok hn
  simp only [Layer.enter] at he
  simp only [circuitBreakerInterception]
  rw [Py.bind_ok (Py.get_apply _)]
  cases ha : policy.admitCall (clock state.2) (held.get state.2) with
  | mk admitted held' =>
      rw [ha] at he
      cases admitted with
      | false => cases he
      | true =>
          cases he
          dsimp only
          rw [Py.bind_ok (Held.modify_apply _ _ _)]
          simp only [if_true]
          rw [Py.bind_ok (tryCatch_ok hrun), Py.bind_ok (Py.get_apply _),
            Py.bind_ok (Held.modify_apply _ _ _)]
          exact ⟨_, setResult_apply _ _⟩

theorem bulkheadInterception_limit {policy : Bulkhead} {held : Held σ Int} {semaphore : Semaphore σ}
    {next : Step σ Unit} {state entered after : Context × σ}
    (he : (Layer.bulkhead policy held semaphore).enter state = some entered)
    (hn : next entered = (.ok (), after)) :
    ∃ world, bulkheadInterception policy held semaphore next state =
      (.ok (), ({ after.1 with result := some (after.1.result.getD (Result.ok none)) }, world)) := by
  have hrun := run_ok hn
  simp only [Layer.enter] at he
  simp only [bulkheadInterception]
  rw [Py.bind_ok (Py.get_apply _)]
  by_cases hfull : policy.capacity ≤ held.get state.2
  · rw [if_pos hfull] at he
    cases he
  · rw [if_neg hfull] at he
    cases hs : semaphore.acquire (held.set (held.get state.2 + 1) state.2) with
    | mk outcome world =>
        rw [hs] at he
        cases outcome with
        | error error => cases he
        | ok _ =>
            cases he
            simp only [hfull, if_false]
            rw [Py.bind_ok (Held.modify_apply _ _ _)]
            have hin : inWorld semaphore.acquire
                (state.1, held.set (held.get state.2 + 1) state.2) = (.ok (), (state.1, world)) := by
              simp only [inWorld, hs]
            have hrelease : inWorld (Py.modify semaphore.release) after =
                (.ok (), (after.1, semaphore.release after.2)) := rfl
            have hbody := tryFinally_ok hrun hrelease
            rw [← Py.bind_ok (f := fun _ => tryFinally (run next)
              (inWorld (Py.modify semaphore.release))) hin] at hbody
            rw [Py.bind_ok (tryFinally_ok hbody (Held.modify_apply _ _ _))]
            exact ⟨_, setResult_apply _ _⟩

theorem rateLimitInterception_limit {policy : RateLimiter} {held : Held σ Bucket} {clock : σ → ℚ}
    {next : Step σ Unit} {state entered after : Context × σ}
    (he : (Layer.rateLimit policy held clock).enter state = some entered)
    (hn : next entered = (.ok (), after)) :
    ∃ world, rateLimitInterception policy held clock next state =
      (.ok (), ({ after.1 with result := some (after.1.result.getD (Result.ok none)) }, world)) := by
  have hrun := run_ok hn
  simp only [Layer.enter] at he
  simp only [rateLimitInterception]
  rw [Py.bind_ok (Py.get_apply _)]
  cases ha : policy.tryAcquire (clock state.2) (held.get state.2) with
  | mk acquired bucket =>
      rw [ha] at he
      cases acquired with
      | false => cases he
      | true =>
          cases he
          dsimp only
          rw [Py.bind_ok (Held.modify_apply _ _ _)]
          simp only [if_true]
          rw [Py.bind_ok hrun]
          exact ⟨_, setResult_apply _ _⟩

theorem interception_limit {layer : Layer σ} (hl : layer.isIdempotency = false) {next : Step σ Unit}
    {state entered after : Context × σ} (he : layer.enter state = some entered)
    (hn : next entered = (.ok (), after)) :
    ∃ world, layer.interception next state =
      (.ok (), ({ after.1 with result := some (after.1.result.getD (Result.ok none)) }, world)) := by
  cases layer with
  | idempotency => cases hl
  | circuitBreaker policy held clock => exact circuitBreakerInterception_limit he hn
  | bulkhead policy held semaphore => exact bulkheadInterception_limit he hn
  | rateLimit policy held clock => exact rateLimitInterception_limit he hn

-- An idempotency layer that enters runs `next`, and with a key remembers what it left.
theorem idempotency_entered {store : IdempotencyStore σ} {keyHeaders : List Str}
    {rememberWhen : Result Value → Except PyError Bool} {next : Step σ Unit}
    {state entered after : Context × σ}
    (he : (Layer.idempotency store keyHeaders rememberWhen).enter state = some entered)
    (hn : next entered = (.ok (), after)) :
    idempotency store keyHeaders rememberWhen next state = (.ok (), after) ∨
      ∃ key, idempotency store keyHeaders rememberWhen next state =
        remember store rememberWhen key after := by
  simp only [Layer.enter] at he
  unfold idempotency
  rw [Py.bind_ok (Py.get_apply _)]
  cases hk : keyOf state.1.headers keyHeaders with
  | none =>
      simp only [hk] at he ⊢
      cases he
      exact .inl hn
  | some key =>
      refine .inr ⟨key, ?_⟩
      simp only [hk] at he ⊢
      cases hs : store.get key state.2 with
      | mk outcome world =>
          rw [hs] at he
          match outcome, he with
          | .ok none, he =>
              cases he
              have hin : inWorld (store.get key) state = (.ok none, (state.1, world)) := by
                simp only [inWorld, hs]
              rw [Py.bind_ok hin]
              dsimp only
              rw [Py.bind_ok hn]

theorem interception_missing {layer : Layer σ} (hl : layer.isIdempotency = true) {next : Step σ Unit}
    {state entered after : Context × σ} (he : layer.enter state = some entered)
    (hn : next entered = (.ok (), after)) (hresult : after.1.result = none) :
    layer.interception next state = (.ok (), after) := by
  cases layer with
  | circuitBreaker => cases hl
  | bulkhead => cases hl
  | rateLimit => cases hl
  | idempotency store keyHeaders rememberWhen =>
      rcases idempotency_entered he hn with h | ⟨key, h⟩
      · exact h
      · exact h.trans (remember_missing store rememberWhen key hresult)

theorem interception_quiet {layer : Layer σ} (hl : layer.isIdempotency = true) (hq : layer.Quiet)
    {next : Step σ Unit} {state entered after : Context × σ} (he : layer.enter state = some entered)
    (hn : next entered = (.ok (), after)) :
    ∃ world, layer.interception next state = (.ok (), (after.1, world)) := by
  cases layer with
  | circuitBreaker => cases hl
  | bulkhead => cases hl
  | rateLimit => cases hl
  | idempotency store keyHeaders rememberWhen =>
      rcases idempotency_entered he hn with h | ⟨key, h⟩
      · exact ⟨after.2, h⟩
      · obtain ⟨world, hw⟩ := remember_quiet hq key after
        exact ⟨world, h.trans hw⟩

-- A layer depends on what is below it in the one state that it enters, if any.
theorem circuitBreakerInterception_congr {policy : CircuitBreaker} {held : Held σ BreakerState} {clock : σ → ℚ}
    {state : Context × σ} {next other : Step σ Unit}
    (he : ∀ entered, (Layer.circuitBreaker policy held clock).enter state = some entered →
      next entered = other entered) :
    circuitBreakerInterception policy held clock next state =
      circuitBreakerInterception policy held clock other state := by
  simp only [Layer.enter] at he
  simp only [circuitBreakerInterception]
  rw [Py.bind_ok (Py.get_apply _), Py.bind_ok (Py.get_apply _)]
  cases ha : policy.admitCall (clock state.2) (held.get state.2) with
  | mk admitted held' =>
      rw [ha] at he
      cases admitted with
      | false => rfl
      | true =>
          have hn := run_congr (he _ rfl)
          simp only [if_true]
          rw [Py.bind_ok (Held.modify_apply _ _ _), Py.bind_ok (Held.modify_apply _ _ _)]
          simp only [Py.bind_apply, Py.tryCatch, hn]

theorem bulkheadInterception_congr {policy : Bulkhead} {held : Held σ Int} {semaphore : Semaphore σ}
    {state : Context × σ} {next other : Step σ Unit}
    (he : ∀ entered, (Layer.bulkhead policy held semaphore).enter state = some entered →
      next entered = other entered) :
    bulkheadInterception policy held semaphore next state =
      bulkheadInterception policy held semaphore other state := by
  simp only [Layer.enter] at he
  simp only [bulkheadInterception]
  rw [Py.bind_ok (Py.get_apply _), Py.bind_ok (Py.get_apply _)]
  by_cases hfull : policy.capacity ≤ held.get state.2
  · simp only [hfull, if_true]
  · rw [if_neg hfull] at he
    simp only [hfull, if_false]
    rw [Py.bind_ok (Held.modify_apply _ _ _), Py.bind_ok (Held.modify_apply _ _ _)]
    cases hs : semaphore.acquire (held.set (held.get state.2 + 1) state.2) with
    | mk outcome world =>
        rw [hs] at he
        have hin : inWorld semaphore.acquire (state.1, held.set (held.get state.2 + 1) state.2) =
            (outcome, (state.1, world)) := by
          simp only [inWorld, hs]
        cases outcome with
        | error error => simp only [tryFinally, Py.bind_apply, Py.tryCatch, hin]
        | ok _ =>
            have hn := run_congr (he _ rfl)
            simp only [tryFinally, Py.bind_apply, Py.tryCatch, hin, hn]

theorem rateLimitInterception_congr {policy : RateLimiter} {held : Held σ Bucket} {clock : σ → ℚ}
    {state : Context × σ} {next other : Step σ Unit}
    (he : ∀ entered, (Layer.rateLimit policy held clock).enter state = some entered →
      next entered = other entered) :
    rateLimitInterception policy held clock next state =
      rateLimitInterception policy held clock other state := by
  simp only [Layer.enter] at he
  simp only [rateLimitInterception]
  rw [Py.bind_ok (Py.get_apply _), Py.bind_ok (Py.get_apply _)]
  cases ha : policy.tryAcquire (clock state.2) (held.get state.2) with
  | mk acquired bucket =>
      rw [ha] at he
      cases acquired with
      | false => rfl
      | true =>
          have hn := run_congr (he _ rfl)
          simp only [if_true]
          rw [Py.bind_ok (Held.modify_apply _ _ _), Py.bind_ok (Held.modify_apply _ _ _)]
          simp only [Py.bind_apply, hn]

theorem idempotency_congr {store : IdempotencyStore σ} {keyHeaders : List Str}
    {rememberWhen : Result Value → Except PyError Bool} {state : Context × σ}
    {next other : Step σ Unit}
    (he : ∀ entered, (Layer.idempotency store keyHeaders rememberWhen).enter state = some entered →
      next entered = other entered) :
    idempotency store keyHeaders rememberWhen next state =
      idempotency store keyHeaders rememberWhen other state := by
  simp only [Layer.enter] at he
  simp only [idempotency]
  rw [Py.bind_ok (Py.get_apply _), Py.bind_ok (Py.get_apply _)]
  cases hk : keyOf state.1.headers keyHeaders with
  | none =>
      simp only [hk] at he ⊢
      exact he state rfl
  | some key =>
      simp only [hk] at he ⊢
      cases hs : store.get key state.2 with
      | mk outcome world =>
          rw [hs] at he
          have hin : inWorld (store.get key) state = (outcome, (state.1, world)) := by
            simp only [inWorld, hs]
          match outcome, hin with
          | .error error, hin => rw [Py.bind_error hin, Py.bind_error hin]
          | .ok (some remembered), hin => rw [Py.bind_ok hin, Py.bind_ok hin]
          | .ok none, hin =>
              rw [Py.bind_ok hin, Py.bind_ok hin]
              simp only [Py.bind_apply, he (state.1, world) rfl]

theorem interception_congr {layer : Layer σ} {state : Context × σ} {next other : Step σ Unit}
    (he : ∀ entered, layer.enter state = some entered → next entered = other entered) :
    layer.interception next state = layer.interception other state := by
  cases layer with
  | circuitBreaker policy held clock => exact circuitBreakerInterception_congr he
  | bulkhead policy held semaphore => exact bulkheadInterception_congr he
  | rateLimit policy held clock => exact rateLimitInterception_congr he
  | idempotency store keyHeaders rememberWhen => exact idempotency_congr he

end Entering

section Stacks

variable [UnicodeData] {σ : Type}

-- The interceptions, the first one outermost, over a downstream pipeline.
def stacked (stack : List (Layer σ)) (downstream : List (Middleware σ)) : List (Middleware σ) :=
  stack.map Layer.interception ++ downstream

-- The state in which a stack runs its downstream, if every layer lets the message by.
def enterAll : List (Layer σ) → Context × σ → Option (Context × σ)
  | [], state => some state
  | layer :: rest, state => (layer.enter state).bind (enterAll rest)

-- Otherwise the downstream does not run.
theorem stacked_shed {stack : List (Layer σ)} {state : Context × σ} (he : enterAll stack state = none)
    (downstream other : List (Middleware σ)) :
    runPipeline (stacked stack downstream) state = runPipeline (stacked stack other) state := by
  induction stack generalizing state with
  | nil => cases he
  | cons layer rest ih =>
      apply interception_congr
      intro entered hlayer
      apply ih
      simpa [enterAll, hlayer] using he

theorem stacked_missing {stack : List (Layer σ)} (hall : ∀ layer ∈ stack, layer.isIdempotency = true)
    {downstream : List (Middleware σ)} {state entered after : Context × σ}
    (he : enterAll stack state = some entered) (hn : runPipeline downstream entered = (.ok (), after))
    (hresult : after.1.result = none) :
    runPipeline (stacked stack downstream) state = (.ok (), after) := by
  induction stack generalizing state with
  | nil =>
      cases he
      exact hn
  | cons layer rest ih =>
      obtain ⟨inner, hlayer, hrest⟩ := Option.bind_eq_some_iff.mp he
      have hl := hall layer List.mem_cons_self
      have hbelow := ih (fun other hm => hall other (List.mem_cons_of_mem _ hm)) hrest
      exact interception_missing hl hlayer hbelow hresult

-- One other layer is enough for a result, which the layers above it keep.
theorem stacked_limit {stack : List (Layer σ)} (hlimit : ∃ layer ∈ stack, layer.isIdempotency = false)
    (hquiet : ∀ layer ∈ stack, layer.Quiet) {downstream : List (Middleware σ)}
    {state entered after : Context × σ} (he : enterAll stack state = some entered)
    (hn : runPipeline downstream entered = (.ok (), after)) (hresult : after.1.result = none) :
    ∃ last, runPipeline (stacked stack downstream) state = (.ok (), last) ∧
      last.1.result = some (Result.ok none) := by
  induction stack generalizing state with
  | nil =>
      obtain ⟨layer, hm, _⟩ := hlimit
      cases hm
  | cons layer rest ih =>
      obtain ⟨inner, hlayer, hrest⟩ := Option.bind_eq_some_iff.mp he
      have hq := hquiet layer List.mem_cons_self
      by_cases hbelow : ∃ other ∈ rest, other.isIdempotency = false
      · obtain ⟨last, hlast, hok⟩ :=
          ih hbelow (fun other hm => hquiet other (List.mem_cons_of_mem _ hm)) hrest
        cases hl : layer.isIdempotency with
        | true =>
            obtain ⟨world, hw⟩ := interception_quiet hl hq hlayer hlast
            exact ⟨_, hw, hok⟩
        | false =>
            obtain ⟨world, hw⟩ := interception_limit hl hlayer hlast
            exact ⟨_, hw, by simp [hok]⟩
      · have hall : ∀ other ∈ rest, other.isIdempotency = true := by
          intro other hm
          by_contra hf
          exact hbelow ⟨other, hm, Bool.eq_false_of_not_eq_true hf⟩
        have hlast := stacked_missing hall hrest hn hresult
        cases hl : layer.isIdempotency with
        | true =>
            obtain ⟨other, hm, hf⟩ := hlimit
            rcases List.mem_cons.mp hm with rfl | hm
            · rw [hl] at hf
              cases hf
            · exact absurd ⟨other, hm, hf⟩ hbelow
        | false =>
            obtain ⟨world, hw⟩ := interception_limit hl hlayer hlast
            exact ⟨_, hw, by simp [hresult]⟩

end Stacks

section Settled

open BenzeneMessageApplication (declaredTopic declaredHeaders declaredBody)

variable [UnicodeData] {σ : Type} {stack : List (Layer σ)} {downstream : List (Middleware σ)}
  {versionHeader : Str} {decode : Py PyError σ Fields} {world : σ}

-- The message got through every layer, and the downstream finished without a result.
structure LeftUnanswered (stack : List (Layer σ)) (downstream : List (Middleware σ)) (versionHeader : Str)
    (decode : Py PyError σ Fields) (world : σ) : Prop where
  reached : ∃ envelope headers parsed world₁ entered after, decode world = (.ok envelope, world₁) ∧
    declaredHeaders envelope = .ok headers ∧ declaredBody envelope = some parsed ∧
    enterAll stack (⟨declaredTopic envelope, parsed, lowerKeys headers,
      resolveVersion headers versionHeader, none, false⟩, world₁) = some entered ∧
    runPipeline downstream entered = (.ok (), after) ∧ after.1.result = none

-- Where the pipeline ends with `result`, the attempt ends with its encoding.
theorem attempt_of_result {pipeline : List (Middleware σ)} {envelope headers : Fields} {parsed : Json}
    {world₁ : σ} {last : Context × σ} {response : Response} (hd : decode world = (.ok envelope, world₁))
    (hh : declaredHeaders envelope = .ok headers) (hb : declaredBody envelope = some parsed)
    (hrun : runPipeline pipeline (⟨declaredTopic envelope, parsed, lowerKeys headers,
      resolveVersion headers versionHeader, none, false⟩, world₁) = (.ok (), last))
    (he : encodeResponse last.1.result = .ok response) :
    ∃ encoded, (attempt ⟨pipeline, versionHeader⟩ {} decode world).1 = .ok encoded ∧
      decodeResponse encoded = decodeResponse response := by
  let application : BenzeneMessageApplication σ := ⟨pipeline, versionHeader⟩
  have hr : application.run ⟨declaredTopic envelope, parsed, lowerKeys headers,
      resolveVersion headers versionHeader, none, false⟩ world₁ = (.ok last.1, last.2) := by
    simp only [BenzeneMessageApplication.run, application, hrun, Except.map]
  refine ⟨application.echoVersion (resolveVersion headers versionHeader) response, ?_,
    decodeResponse_echoVersion _ _⟩
  unfold attempt
  rw [Py.bind_ok hd, BenzeneMessageApplication.handle_parsed _ hh hb]
  simp only [application] at hr
  simp only [hr, he, Except.map]
  rfl

-- A run that left no result is not acknowledged where every layer is an
-- idempotency layer; any other layer acknowledges it, unless remembering raises.
theorem unanswered_not_acknowledged_iff (h : LeftUnanswered stack downstream versionHeader decode world) :
    ((∀ layer ∈ stack, layer.isIdempotency = true) →
      ¬ Acknowledged ⟨stacked stack downstream, versionHeader⟩ {} decode world) ∧
    ((∀ layer ∈ stack, layer.Quiet) →
      ¬ Acknowledged ⟨stacked stack downstream, versionHeader⟩ {} decode world →
        ∀ layer ∈ stack, layer.isIdempotency = true) := by
  obtain ⟨envelope, headers, parsed, world₁, entered, after, hd, hh, hb, he, hn, hresult⟩ := h.reached
  constructor
  · intro hall
    have hrun := stacked_missing hall he hn hresult
    have henc : encodeResponse after.1.result = .ok ⟨Status.unexpectedError, false,
        contentType "application/problem+json", Json.dumpsWith .spaced (.obj (errorPayload noResult))⟩ := by
      rw [hresult]
      rfl
    obtain ⟨encoded, hattempt, hdecode⟩ := attempt_of_result hd hh hb hrun henc
    have hs := decodeResponse_isSuccessful henc
    rw [hresult] at hs
    rw [acknowledged_iff, hattempt]
    simp only [hdecode, hs]
    decide
  · intro hquiet hnot
    by_contra hlimit
    push Not at hlimit
    obtain ⟨layer, hm, hf⟩ := hlimit
    obtain ⟨last, hrun, hok⟩ :=
      stacked_limit ⟨layer, hm, Bool.eq_false_of_not_eq_true hf⟩ hquiet he hn hresult
    have henc : encodeResponse last.1.result =
        .ok ⟨Status.ok, true, contentType "application/json", []⟩ := by
      rw [hok]
      rfl
    obtain ⟨encoded, hattempt, hdecode⟩ := attempt_of_result hd hh hb hrun henc
    have hs := decodeResponse_isSuccessful henc
    rw [hok] at hs
    apply hnot
    rw [acknowledged_iff, hattempt]
    simp only [hdecode, hs]
    decide

end Settled

section Runs

-- A middleware that ends the pipeline without a result.
def dropped {σ : Type} : Middleware σ := fun _ => pure ()

def alone : Held BreakerState BreakerState := ⟨id, fun held _ => held, fun _ _ => rfl⟩

def breakerLayer : Layer BreakerState := .circuitBreaker {} alone fun _ => 0

def droppedPipeline [UnicodeData] {σ : Type} : List (Middleware σ) :=
  [dropped, messageRouter (⟨Dict.empty⟩ : Registry σ Unit)]

theorem leftUnanswered_dropped : letI := UnicodeData.ascii
    LeftUnanswered [breakerLayer] droppedPipeline "benzene-version" (pure []) {} := by
  let _ := UnicodeData.ascii
  exact ⟨[], [], .obj [], {}, _, _, rfl, rfl, rfl, rfl, rfl, rfl⟩

-- A layer that remembers the keys it has seen, beside the breaker.
def idempotent (header : Str) : Layer (BreakerState × List Json) :=
  .idempotency
    ⟨fun key world => (.ok (if key ∈ world.2 then some (Result.ok none) else none), world),
      fun key _ => Py.modify fun world => (world.1, key :: world.2)⟩
    [header] fun result => .ok result.isSuccessful

def breakerBeside : Layer (BreakerState × List Json) :=
  .circuitBreaker {} ⟨Prod.fst, fun held world => (held, world.2), fun _ _ => rfl⟩ fun _ => 0

def keyedMessage : Fields :=
  [Json.field "headers" (.obj [Json.field "Idempotency-Key" (.str "k-1"), Json.field "X-Request-Id" (.str "r-1")])]

theorem keyed_not_acknowledged : letI := UnicodeData.ascii
    ¬Acknowledged ⟨stacked [idempotent "idempotency-key", idempotent "x-request-id"] droppedPipeline,
      "benzene-version"⟩ {} (pure keyedMessage) ({}, []) ∧
      Acknowledged ⟨stacked [idempotent "idempotency-key", breakerBeside, idempotent "x-request-id"] droppedPipeline,
        "benzene-version"⟩ {} (pure keyedMessage) ({}, []) := by
  let _ := UnicodeData.ascii
  have hkeyed : LeftUnanswered [idempotent "idempotency-key", idempotent "x-request-id"] droppedPipeline
      "benzene-version" (pure keyedMessage) ({}, []) := ⟨keyedMessage, _, _, _, _, _, rfl, rfl, rfl, rfl, rfl, rfl⟩
  have hbreaker : LeftUnanswered [idempotent "idempotency-key", breakerBeside, idempotent "x-request-id"]
      droppedPipeline "benzene-version" (pure keyedMessage) ({}, []) :=
    ⟨keyedMessage, _, _, _, _, _, rfl, rfl, rfl, rfl, rfl, rfl⟩
  refine ⟨(unanswered_not_acknowledged_iff hkeyed).1 (by simp [idempotent, Layer.isIdempotency]), ?_⟩
  by_contra hno
  have hquiet : ∀ layer ∈ [idempotent "idempotency-key", breakerBeside, idempotent "x-request-id"], layer.Quiet := by
    simp [idempotent, breakerBeside, Layer.Quiet, Py.modify]
  have hall := (unanswered_not_acknowledged_iff hbreaker).2 hquiet hno breakerBeside (by simp)
  cases hall

-- One circuit breaker acknowledges a message that nothing answered.
theorem breaker_acknowledges_unanswered : letI := UnicodeData.ascii
    LeftUnanswered [breakerLayer] droppedPipeline "benzene-version" (pure []) {} ∧
      Acknowledged ⟨stacked [breakerLayer] droppedPipeline, "benzene-version"⟩ {} (pure []) {} := by
  let _ := UnicodeData.ascii
  exact ⟨leftUnanswered_dropped, _, _, rfl, rfl⟩

end Runs

end Benzene.Resilience
