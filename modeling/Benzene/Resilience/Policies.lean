import Benzene.Core.Routing
import Benzene.Data.Rounding

namespace Benzene.Resilience

open Benzene.Data Benzene.Results Benzene.Core

section Circuit

inductive CircuitState
  | closed
  | opened
  | halfOpen
deriving DecidableEq

-- The parameters; a threshold below one counts as one. The clock's numbers are
-- exact, or floats whose differences are rounded; the timeout is one of them.
structure CircuitBreaker where
  failureThreshold : Int := 5
  resetTimeout : ℚ := 30
  tripOn : List Str :=
    [Status.serviceUnavailable, Status.timeout, Status.tooManyRequests, Status.unexpectedError]
  numbers : Rounding := .exact
  timeout_round : numbers.round resetTimeout = resetTimeout := by rfl

structure BreakerState where
  state : CircuitState := .closed
  consecutiveFailures : Nat := 0
  openedAt : ℚ := 0
  probing : Bool := false

namespace CircuitBreaker

variable (breaker : CircuitBreaker) (now : ℚ)

def resetElapsed (held : BreakerState) : Bool :=
  breaker.resetTimeout ≤ breaker.numbers.round (now - held.openedAt)

-- Whether a call may go on; an elapsed open window admits one probe.
def admitCall (held : BreakerState) : Bool × BreakerState :=
  match held.state with
  | .opened =>
      if breaker.resetElapsed now held then (true, { held with state := .halfOpen, probing := true })
      else (false, held)
  | .halfOpen => if held.probing then (false, held) else (true, { held with probing := true })
  | .closed => (true, held)

def onSuccess (held : BreakerState) : BreakerState :=
  { held with consecutiveFailures := 0, probing := false, state := .closed }

def trip (held : BreakerState) : BreakerState := { held with state := .opened, openedAt := now }

def onFailure (held : BreakerState) : BreakerState :=
  let held := { held with probing := false }
  if held.state = .halfOpen then trip now held
  else
    let held := { held with consecutiveFailures := held.consecutiveFailures + 1 }
    if max 1 breaker.failureThreshold ≤ (held.consecutiveFailures : Int) then trip now held else held

def record (result : Result Value) (held : BreakerState) : BreakerState :=
  if result.isSuccessful || result.status ∉ breaker.tripOn then onSuccess held
  else breaker.onFailure now held

end CircuitBreaker

end Circuit

section Limits

structure Bulkhead where
  maxConcurrency : Int
  maxQueue : Int := 0

def Bulkhead.capacity (bulkhead : Bulkhead) : Int := max 1 bulkhead.maxConcurrency + max 0 bulkhead.maxQueue

-- The rate, the burst and the clock are exact numbers, which no sum or product
-- of them rounds.
structure RateLimiter where
  refillRate : ℚ
  burst : ℚ := 1
  positive : 0 < refillRate

structure Bucket where
  tokens : ℚ
  updatedAt : ℚ

namespace RateLimiter

variable (limiter : RateLimiter) (now : ℚ)

def refill (bucket : Bucket) : Bucket :=
  let elapsed := now - bucket.updatedAt
  if 0 < elapsed then
    ⟨min (max 1 limiter.burst) (bucket.tokens + elapsed * limiter.refillRate), now⟩
  else bucket

def tryAcquire (bucket : Bucket) : Bool × Bucket :=
  let bucket := limiter.refill now bucket
  if 1 ≤ bucket.tokens then (true, { bucket with tokens := bucket.tokens - 1 }) else (false, bucket)

end RateLimiter

end Limits

section Interceptions

-- An object's state within the world.
structure Held (σ S : Type) where
  get : σ → S
  set : S → σ → σ
  get_set : ∀ s world, get (set s world) = s

def Held.modify {σ S : Type} (held : Held σ S) (f : S → S) : Step σ Unit :=
  inWorld (Py.modify fun world => held.set (f (held.get world)) world)

variable {σ : Type}

-- `next()` reduced to the context's result.
def run (next : Step σ Unit) : Step σ (Result Value) := do
  next
  let (context, _) ← Py.get
  return context.result.getD (Result.ok none)

def circuitBreakerInterception (breaker : CircuitBreaker) (held : Held σ BreakerState) (clock : σ → ℚ) :
    Middleware σ := fun next => do
  let (_, world) ← Py.get
  let (admitted, entered) := breaker.admitCall (clock world) (held.get world)
  held.modify fun _ => entered
  if admitted then
    let result ← Py.tryCatch (run next) fun error => do
      let (_, world) ← Py.get
      if error.isException then held.modify (breaker.onFailure (clock world))
      Py.throw error
    let (_, world) ← Py.get
    held.modify (breaker.record (clock world) result)
    setResult result
  else setResult (Result.serviceUnavailable "circuit breaker is open")

-- Waiting for a slot lets other tasks run, and may be cancelled.
structure Semaphore (σ : Type) where
  acquire : Py PyError σ Unit
  release : σ → σ

-- `try: body  finally: cleanup`.
def tryFinally {α : Type} (body : Step σ α) (cleanup : Step σ Unit) : Step σ α := do
  let value ← Py.tryCatch body fun error => do
    cleanup
    Py.throw error
  cleanup
  return value

def bulkheadInterception (bulkhead : Bulkhead) (held : Held σ Int) (semaphore : Semaphore σ) :
    Middleware σ := fun next => do
  let (_, world) ← Py.get
  if bulkhead.capacity ≤ held.get world then setResult (Result.tooManyRequests "bulkhead is full")
  else
    held.modify (· + 1)
    let admitted := do
      inWorld semaphore.acquire
      tryFinally (run next) (inWorld (Py.modify semaphore.release))
    let result ← tryFinally admitted (held.modify (· - 1))
    setResult result

def rateLimitInterception (limiter : RateLimiter) (held : Held σ Bucket) (clock : σ → ℚ) :
    Middleware σ := fun next => do
  let (_, world) ← Py.get
  let (acquired, bucket) := limiter.tryAcquire (clock world) (held.get world)
  held.modify fun _ => bucket
  if acquired then setResult (← run next)
  else setResult (Result.tooManyRequests "rate limit exceeded")

structure IdempotencyStore (σ : Type) where
  get : Json → Py PyError σ (Option (Result Value))
  put : Json → Result Value → Py PyError σ Unit

-- A missing result is not remembered.
def remember (store : IdempotencyStore σ) (rememberWhen : Result Value → Except PyError Bool) (key : Json) :
    Step σ Unit := do
  let (context, _) ← Py.get
  match context.result with
  | none => pure ()
  | some result =>
      if ← Py.lift (rememberWhen result) then inWorld (store.put key result)

variable [UnicodeData]

def keyOf (headers : Fields) (candidates : List Str) : Option Json :=
  (candidates.map fun name => Json.getField headers (Str.lower name)).find? Json.truthy

-- A first delivery runs and is remembered, a repeated one replays what it left.
def idempotency (store : IdempotencyStore σ) (keyHeaders : List Str)
    (rememberWhen : Result Value → Except PyError Bool) : Middleware σ := fun next => do
  let (context, _) ← Py.get
  match keyOf context.headers keyHeaders with
  | none => next
  | some key =>
      match ← inWorld (store.get key) with
      | some remembered => setResult remembered
      | none =>
          next
          remember store rememberWhen key

end Interceptions

end Benzene.Resilience
