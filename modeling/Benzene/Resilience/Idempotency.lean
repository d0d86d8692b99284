import Benzene.Data.Transition
import Benzene.Resilience.Stack

namespace Benzene.Resilience

open Benzene.Data Benzene.Data.Transition Benzene.Results Benzene.Core

section Memory

-- What a dictionary tells keys apart by: equal numbers are one key.
inductive StoreKey
  | none
  | text (s : Str)
  | number (value : ℚ)
  | infinity (negative : Bool)
deriving DecidableEq

-- A list and a dictionary cannot be hashed. NaN is no other key's equal, nor its own.
def storeKey (key : Json) : Except PyError (Option StoreKey) :=
  match key with
  | .null => .ok (some .none)
  | .str s => .ok (some (.text s))
  | .arr _ | .obj _ => .error ⟨.typeError, []⟩
  | key => match key.numeric? with
      | some (.value q) => .ok (some (.number q))
      | some (.infinity negative) => .ok (some (.infinity negative))
      | _ => .ok none

abbrev Remembered := Dict StoreKey (Result Value × Option ℚ)

structure InMemoryIdempotencyStore where
  ttl : Option ℚ := none

namespace InMemoryIdempotencyStore

variable (memory : InMemoryIdempotencyStore) (now : ℚ)

-- An expired entry goes when it is read.
def get (key : StoreKey) (entries : Remembered) : Option (Result Value) × Remembered :=
  match entries.get? key with
  | none => (none, entries)
  | some (result, expiresAt) =>
      if expiresAt.any (· ≤ now) then (none, entries.without [key]) else (some result, entries)

def put (key : StoreKey) (result : Result Value) (entries : Remembered) : Remembered :=
  entries.set key (result, memory.ttl.map (now + ·))

variable {ω : Type} (clock : ω → ℚ)

-- The store as the middleware has it, beside the rest of the world.
def store : IdempotencyStore (Remembered × ω) where
  get key := do
    match ← Py.lift (storeKey key) with
    | none => pure none
    | some key =>
        let (entries, world) ← Py.get
        let (found, left) := get (clock world) key entries
        Py.modify fun _ => (left, world)
        return found
  put key result := do
    match ← Py.lift (storeKey key) with
    | none => pure ()
    | some key => Py.modify fun (entries, world) => (memory.put (clock world) key result entries, world)

variable {memory now clock}

theorem get_sub {key other : StoreKey} {entries : Remembered} {entry : Result Value × Option ℚ}
    (h : (get now key entries).2.get? other = some entry) : entries.get? other = some entry := by
  unfold get at h
  split at h
  · exact h
  · split at h
    · rw [Dict.get?_without] at h
      split at h
      · cases h
      · exact h
    · exact h

theorem get_some {key : StoreKey} {entries : Remembered} {result : Result Value}
    (h : (get now key entries).1 = some result) : ∃ expiresAt, entries.get? key = some (result, expiresAt) := by
  unfold get at h
  split at h
  · cases h
  · rename_i found expiresAt hentry
    split at h
    · cases h
    · cases h
      exact ⟨expiresAt, hentry⟩

theorem get_missing (now : ℚ) {key : StoreKey} {entries : Remembered} (h : entries.get? key = none) :
    get now key entries = (none, entries) := by
  unfold get
  rw [h]

-- Without a lifetime an entry does not expire.
theorem get_lasting (now : ℚ) {key : StoreKey} {entries : Remembered} {result : Result Value}
    (h : entries.get? key = some (result, none)) : get now key entries = (some result, entries) := by
  unfold get
  rw [h]
  rfl

theorem store_get {key : Json} {hashed : StoreKey} (h : storeKey key = .ok (some hashed)) (entries : Remembered)
    (world : ω) : (store memory clock).get key (entries, world) =
      (.ok (get (clock world) hashed entries).1, ((get (clock world) hashed entries).2, world)) := by
  unfold store
  dsimp only
  rw [h]
  rfl

theorem store_put {key : Json} {hashed : StoreKey} (h : storeKey key = .ok (some hashed)) (result : Result Value)
    (entries : Remembered) (world : ω) : (store memory clock).put key result (entries, world) =
      (.ok (), (memory.put (clock world) hashed result entries, world)) := by
  unfold store
  dsimp only
  rw [h]
  rfl

theorem store_unequal {key : Json} (h : storeKey key = .ok none) (result : Result Value) (state : Remembered × ω) :
    (store memory clock).get key state = (.ok none, state) ∧
      (store memory clock).put key result state = (.ok (), state) := by
  unfold store
  dsimp only
  rw [h]
  exact ⟨rfl, rfl⟩

theorem store_unhashable {key : Json} {error : PyError} (h : storeKey key = .error error)
    (state : Remembered × ω) : (store memory clock).get key state = (.error error, state) := by
  unfold store
  dsimp only
  rw [h]
  rfl

end InMemoryIdempotencyStore

end Memory

section Replay

-- A computation that leaves a part of the world alone.
def beside {S ω α : Type} (x : Step ω α) : Step (S × ω) α := fun state =>
  match x (state.1, state.2.2) with
  | (outcome, (context, world)) => (outcome, (context, (state.2.1, world)))

theorem beside_left {S ω α : Type} (x : Step ω α) (state : Context × (S × ω)) :
    (beside x state).2.2.1 = state.2.1 := rfl

theorem beside_ok {S ω : Type} {x : Step ω Unit} {state after : Context × (S × ω)}
    (h : beside x state = (.ok (), after)) : x (state.1, state.2.2) = (.ok (), (after.1, after.2.2)) := by
  unfold beside at h
  cases hx : x (state.1, state.2.2) with
  | mk outcome left =>
      rw [hx] at h
      cases h
      rfl

variable {ω : Type}

section Stored

-- What is remembered of a result.
theorem remember_cases (store : IdempotencyStore ω) (rememberWhen : Result Value → Except PyError Bool) (key : Json)
    (state : Context × ω) : (remember store rememberWhen key state).2 = state ∨
      ∃ result, state.1.result = some result ∧ rememberWhen result = .ok true ∧
        remember store rememberWhen key state = inWorld (store.put key result) state := by
  cases hresult : state.1.result with
  | none =>
      left
      rw [remember_missing store rememberWhen key hresult]
  | some result =>
      unfold remember
      rw [Py.bind_ok (Py.get_apply _)]
      simp only [hresult]
      cases hr : rememberWhen result with
      | error error => exact .inl rfl
      | ok kept =>
          rw [Py.lift_ok_bind]
          cases kept with
          | false => exact .inl rfl
          | true => exact .inr ⟨result, rfl, hr, rfl⟩

variable [UnicodeData] {store : IdempotencyStore ω} {keyHeaders : List Str}
  {rememberWhen : Result Value → Except PyError Bool} {next : Step ω Unit} {context : Context} {world : ω} {key : Json}

theorem idempotency_unkeyed (h : keyOf context.headers keyHeaders = none) :
    idempotency store keyHeaders rememberWhen next (context, world) = next (context, world) := by
  unfold idempotency
  rw [Py.bind_ok (Py.get_apply _)]
  simp only [h]

theorem idempotency_keyed (h : keyOf context.headers keyHeaders = some key) :
    idempotency store keyHeaders rememberWhen next (context, world) =
      match store.get key world with
      | (.error error, world) => (.error error, (context, world))
      | (.ok (some remembered), world) => (.ok (), ({ context with result := some remembered }, world))
      | (.ok none, world) => (next >>= fun _ => remember store rememberWhen key) (context, world) := by
  unfold idempotency
  rw [Py.bind_ok (Py.get_apply _)]
  simp only [h]
  rw [Py.bind_apply, inWorld]
  cases store.get key world with
  | mk outcome world =>
      cases outcome with
      | error error => rfl
      | ok found => cases found <;> rfl

end Stored

-- What a run that was not answered from the store leaves in it.
theorem remembered_cases {store : IdempotencyStore (Remembered × ω)} {rememberWhen : Result Value → Except PyError Bool}
    (next : Step ω Unit) (key : Json) (context : Context) (entries : Remembered) (world : ω) :
    ((beside next >>= fun _ => remember store rememberWhen key) (context, (entries, world))).2.2.1 = entries ∨
      ∃ after later result, next (context, world) = (.ok (), (after, later)) ∧ after.result = some result ∧
        rememberWhen result = .ok true ∧
        ((beside next >>= fun _ => remember store rememberWhen key) (context, (entries, world))).2.2.1 =
          (store.put key result (entries, later)).2.1 := by
  rw [Py.bind_apply]
  cases hbeside : beside next (context, (entries, world)) with
  | mk outcome state =>
      have hleft : state.2.1 = entries := by
        have h := beside_left next (context, (entries, world))
        rw [hbeside] at h
        exact h
      cases outcome with
      | error error => exact .inl hleft
      | ok value =>
          have hnext := beside_ok hbeside
          obtain hsame | ⟨result, hresult, hkept, hput⟩ :=
            remember_cases store rememberWhen key state
          · left
            show (remember store rememberWhen key state).2.2.1 = entries
            rw [hsame, hleft]
          · right
            refine ⟨state.1, state.2.2, result, hnext, hresult, hkept, ?_⟩
            show (remember store rememberWhen key state).2.2.1 = _
            rw [hput, ← hleft]
            rfl

variable [UnicodeData] (memory : InMemoryIdempotencyStore) (clock : ω → ℚ) (keyHeaders : List Str)
  (rememberWhen : Result Value → Except PyError Bool) (next : Step ω Unit)

-- What the store holds once a message has been answered.
def deliver (entries : Remembered) (message : Context × ω) : Remembered :=
  (idempotency (memory.store clock) keyHeaders rememberWhen (beside next)
    (message.1, (entries, message.2))).2.2.1

def deliverAll (history : List (Context × ω)) : Remembered :=
  history.foldl (deliver memory clock keyHeaders rememberWhen next) Dict.empty

-- The message that has `key` is not answered from the store, and the rest of the
-- pipeline leaves it a result to remember.
structure Produced (entries : Remembered) (message : Context × ω) (key : StoreKey) (result : Result Value) :
    Prop where
  keyed : ∃ json, keyOf message.1.headers keyHeaders = some json ∧ storeKey json = .ok (some key)
  missed : (InMemoryIdempotencyStore.get (clock message.2) key entries).1 = none
  answered : ∃ after world, next message = (.ok (), (after, world)) ∧ after.result = some result
  kept : rememberWhen result = .ok true

variable {memory clock keyHeaders rememberWhen next}

theorem deliver_entry {entries : Remembered} {message : Context × ω} {key : StoreKey} {result : Result Value}
    {expiresAt : Option ℚ}
    (h : (deliver memory clock keyHeaders rememberWhen next entries message).get? key = some (result, expiresAt)) :
    entries.get? key = some (result, expiresAt) ∨
      Produced clock keyHeaders rememberWhen next entries message key result := by
  unfold deliver at h
  cases hkey : keyOf message.1.headers keyHeaders with
  | none =>
      rw [idempotency_unkeyed hkey, beside_left] at h
      exact .inl h
  | some json =>
      rw [idempotency_keyed hkey] at h
      cases hhash : storeKey json with
      | error error =>
          rw [InMemoryIdempotencyStore.store_unhashable hhash] at h
          exact .inl h
      | ok hashed =>
          cases hashed with
          | none =>
              rw [(InMemoryIdempotencyStore.store_unequal hhash (Result.ok none) _).1] at h
              cases remembered_cases next json message.1 entries message.2 with
              | inl hsame =>
                  rw [hsame] at h
                  exact .inl h
              | inr hput =>
                  obtain ⟨after, later, left, -, -, -, hput⟩ := hput
                  rw [hput, (InMemoryIdempotencyStore.store_unequal hhash left _).2] at h
                  exact .inl h
          | some hashed =>
              rw [InMemoryIdempotencyStore.store_get hhash] at h
              cases hfound : (InMemoryIdempotencyStore.get (clock message.2) hashed entries).1 with
              | some remembered =>
                  rw [hfound] at h
                  exact .inl (InMemoryIdempotencyStore.get_sub h)
              | none =>
                  rw [hfound] at h
                  cases remembered_cases next json message.1 _ message.2 with
                  | inl hsame =>
                      rw [hsame] at h
                      exact .inl (InMemoryIdempotencyStore.get_sub h)
                  | inr hput =>
                      obtain ⟨after, later, left, hnext, hleft, hkept, hput⟩ := hput
                      rw [hput, InMemoryIdempotencyStore.store_put hhash] at h
                      change Dict.get? (Dict.set _ hashed _) key = _ at h
                      by_cases hsame : hashed = key
                      · subst hsame
                        rw [Dict.get?_set_self] at h
                        cases h
                        exact .inr ⟨⟨json, hkey, hhash⟩, hfound, ⟨after, later, hnext, hleft⟩, hkept⟩
                      · rw [Dict.get?_set_of_ne _ _ hsame] at h
                        exact .inl (InMemoryIdempotencyStore.get_sub h)

theorem deliverAll_entry {history : List (Context × ω)} {key : StoreKey} {result : Result Value}
    {expiresAt : Option ℚ}
    (h : (deliverAll memory clock keyHeaders rememberWhen next history).get? key = some (result, expiresAt)) :
    ∃ earlier source rest, history = earlier ++ source :: rest ∧
      Produced clock keyHeaders rememberWhen next
        (deliverAll memory clock keyHeaders rememberWhen next earlier) source key result := by
  induction history using List.reverseRecOn with
  | nil => cases h
  | append_singleton history message ih =>
      unfold deliverAll at h
      rw [List.foldl_append] at h
      cases deliver_entry h with
      | inl hbefore =>
          obtain ⟨earlier, source, rest, rfl, hproduced⟩ := ih hbefore
          exact ⟨earlier, source, rest ++ [message], by simp, hproduced⟩
      | inr hproduced => exact ⟨history, message, [], rfl, hproduced⟩

-- A message that the store answers.
def Replays (memory : InMemoryIdempotencyStore) (clock : ω → ℚ) (keyHeaders : List Str) (entries : Remembered)
    (message : Context × ω) (remembered : Result Value) : Prop :=
  ∃ key, keyOf message.1.headers keyHeaders = some key ∧
    ((memory.store clock).get key (entries, message.2)).1 = .ok (some remembered)

theorem Replays.answered {entries : Remembered} {message : Context × ω} {remembered : Result Value}
    (h : Replays memory clock keyHeaders entries message remembered) :
    ∃ left, idempotency (memory.store clock) keyHeaders rememberWhen (beside next) (message.1, (entries, message.2)) =
      (.ok (), ({ message.1 with result := some remembered }, left)) := by
  obtain ⟨key, hkey, hget⟩ := h
  rw [idempotency_keyed hkey]
  cases hfound : (memory.store clock).get key (entries, message.2) with
  | mk outcome left =>
      rw [hfound] at hget
      cases hget
      exact ⟨left, rfl⟩

theorem Replays.stored {entries : Remembered} {message : Context × ω} {remembered : Result Value}
    (h : Replays memory clock keyHeaders entries message remembered) :
    ∃ json key expiresAt, keyOf message.1.headers keyHeaders = some json ∧ storeKey json = .ok (some key) ∧
      entries.get? key = some (remembered, expiresAt) := by
  obtain ⟨json, hkey, hget⟩ := h
  cases hhash : storeKey json with
  | error error =>
      rw [InMemoryIdempotencyStore.store_unhashable hhash] at hget
      cases hget
  | ok hashed =>
      cases hashed with
      | none =>
          rw [(InMemoryIdempotencyStore.store_unequal hhash remembered _).1] at hget
          cases hget
      | some key =>
          rw [InMemoryIdempotencyStore.store_get hhash] at hget
          obtain ⟨expiresAt, hentry⟩ := InMemoryIdempotencyStore.get_some (Except.ok.inj hget)
          exact ⟨json, key, expiresAt, hkey, hhash, hentry⟩

end Replay

section Operations

-- A replayed result is one that an earlier message with the same key left, having
-- run the pipeline itself.
theorem replay_produced {ω τ : Type} [UnicodeData] {memory : InMemoryIdempotencyStore} {clock : ω → ℚ}
    {keyHeaders : List Str} {rememberWhen : Result Value → Except PyError Bool} (registry : Registry ω τ)
    (pipeline : List (Middleware ω)) {history : List (Context × ω)} {message : Context × ω}
    {remembered : Result Value} (h : Replays memory clock keyHeaders (deliverAll memory clock keyHeaders rememberWhen
      (runPipeline (pipeline ++ [messageRouter registry])) history) message remembered) :
    ∃ earlier source rest json key, history = earlier ++ source :: rest ∧
      keyOf message.1.headers keyHeaders = some json ∧ storeKey json = .ok (some key) ∧
      Produced clock keyHeaders rememberWhen (runPipeline (pipeline ++ [messageRouter registry]))
        (deliverAll memory clock keyHeaders rememberWhen (runPipeline (pipeline ++ [messageRouter registry])) earlier)
        source key remembered := by
  obtain ⟨json, key, expiresAt, hkey, hhash, hentry⟩ := h.stored
  obtain ⟨earlier, source, rest, hhistory, hproduced⟩ := deliverAll_entry hentry
  exact ⟨earlier, source, rest, json, key, hhistory, hkey, hhash, hproduced⟩

def defaultKeyHeaders : List Str := ["idempotency-key", "message-id"]

def rememberSuccess (result : Result Value) : Except PyError Bool := .ok result.isSuccessful

def ordersRegistry : Registry Unit Unit :=
  ⟨Dict.ofEntries [(("orders", "1"), ⟨"orders", fun _ => pure (Result.ok none), "1", none, false⟩)]⟩

def keyed (topic version : Str) : Context × Unit :=
  (⟨.str topic, .null, [("idempotency-key", .str "k")], .str version, none, false⟩, ())

theorem replay_produced_orders : letI := UnicodeData.ascii
    ∃ earlier source rest json key, [keyed "orders" "1"] = earlier ++ source :: rest ∧
      keyOf (keyed "cards" "2").1.headers defaultKeyHeaders = some json ∧ storeKey json = .ok (some key) ∧
      Produced (fun _ => 0) defaultKeyHeaders rememberSuccess (runPipeline ([] ++ [messageRouter ordersRegistry]))
        (deliverAll {} (fun _ => 0) defaultKeyHeaders rememberSuccess
          (runPipeline ([] ++ [messageRouter ordersRegistry])) earlier)
        source key (Result.ok none) := by
  let _ := UnicodeData.ascii
  exact replay_produced ordersRegistry [] ⟨.str "k", rfl, rfl⟩

-- The key alone is compared: neither the topic nor the version of the two messages
-- need agree.
theorem not_replay_operation : letI := UnicodeData.ascii
    (¬∀ (registry : Registry Unit Unit) (history : List (Context × Unit)) (message : Context × Unit) remembered,
      Replays {} (fun _ => 0) defaultKeyHeaders (deliverAll {} (fun _ => 0) defaultKeyHeaders rememberSuccess
        (runPipeline ([] ++ [messageRouter registry])) history) message remembered →
        ∃ source ∈ history, source.1.topic = message.1.topic) ∧
    ¬∀ (registry : Registry Unit Unit) (history : List (Context × Unit)) (message : Context × Unit) remembered,
      Replays {} (fun _ => 0) defaultKeyHeaders (deliverAll {} (fun _ => 0) defaultKeyHeaders rememberSuccess
        (runPipeline ([] ++ [messageRouter registry])) history) message remembered →
        ∃ source ∈ history, source.1.version = message.1.version := by
  let _ := UnicodeData.ascii
  constructor
  · intro h
    obtain ⟨source, hsource, htopic⟩ := h ordersRegistry [keyed "orders" "1"] (keyed "cards" "2") (Result.ok none)
      ⟨.str "k", rfl, rfl⟩
    rw [List.mem_singleton.mp hsource] at htopic
    exact absurd htopic (by decide)
  · intro h
    obtain ⟨source, hsource, hversion⟩ := h ordersRegistry [keyed "orders" "1"] (keyed "orders" "2") (Result.ok none)
      ⟨.str "k", rfl, rfl⟩
    rw [List.mem_singleton.mp hsource] at hversion
    exact absurd hversion (by decide)

end Operations

section Deliveries

-- Where a delivery is: it has not read the store, runs the handler, is to write
-- what that left, or is done, with a replayed result or without.
inductive Phase
  | arrived
  | running
  | remembering (result : Result Value)
  | replayed (result : Result Value)
  | finished

-- The deliveries of one key, and the successes their handlers had.
structure Deliveries where
  entries : Remembered
  phases : Nat → Phase := fun _ => .arrived
  successes : List (Result Value) := []

inductive DeliveryEvent
  | read (id : Nat) (clock : ℚ)
  | handle (id : Nat) (outcome : Except PyError (Option (Result Value)))
  | write (id : Nat) (clock : ℚ)

namespace Deliveries

-- The success that is to be remembered.
def success? : Except PyError (Option (Result Value)) → Option (Result Value)
  | .ok (some result) => if result.isSuccessful then some result else none
  | _ => none

def enter (deliveries : Deliveries) (id : Nat) (phase : Phase) : Nat → Phase :=
  Function.update deliveries.phases id phase

def step (memory : InMemoryIdempotencyStore) (key : StoreKey) (deliveries : Deliveries) :
    DeliveryEvent → Option Deliveries
  | .read id clock =>
      match deliveries.phases id with
      | .arrived =>
          let (found, left) := InMemoryIdempotencyStore.get clock key deliveries.entries
          match found with
          | some remembered =>
              some { deliveries with entries := left, phases := deliveries.enter id (.replayed remembered) }
          | none => some { deliveries with entries := left, phases := deliveries.enter id .running }
      | _ => none
  | .handle id outcome =>
      match deliveries.phases id with
      | .running =>
          match success? outcome with
          | some result => some { deliveries with
              phases := deliveries.enter id (.remembering result)
              successes := deliveries.successes ++ [result] }
          | none => some { deliveries with phases := deliveries.enter id .finished }
      | _ => none
  | .write id clock =>
      match deliveries.phases id with
      | .remembering result => some { deliveries with
          entries := memory.put clock key result deliveries.entries
          phases := deliveries.enter id .finished }
      | _ => none

variable {memory : InMemoryIdempotencyStore} {key : StoreKey} {deliveries after : Deliveries}

@[simp] theorem enter_self (id : Nat) (phase : Phase) : deliveries.enter id phase id = phase :=
  Function.update_self ..

theorem enter_other {id other : Nat} (phase : Phase) (h : other ≠ id) :
    deliveries.enter id phase other = deliveries.phases other :=
  Function.update_of_ne h ..

inductive Steps (memory : InMemoryIdempotencyStore) (key : StoreKey) (deliveries : Deliveries) :
    DeliveryEvent → Deliveries → Prop
  | replayed {id : Nat} {clock : ℚ} {remembered : Result Value} (arrived : deliveries.phases id = .arrived)
      (found : (InMemoryIdempotencyStore.get clock key deliveries.entries).1 = some remembered) :
      Steps memory key deliveries (.read id clock) { deliveries with
        entries := (InMemoryIdempotencyStore.get clock key deliveries.entries).2
        phases := deliveries.enter id (.replayed remembered) }
  | missed {id : Nat} {clock : ℚ} (arrived : deliveries.phases id = .arrived)
      (missing : (InMemoryIdempotencyStore.get clock key deliveries.entries).1 = none) :
      Steps memory key deliveries (.read id clock) { deliveries with
        entries := (InMemoryIdempotencyStore.get clock key deliveries.entries).2
        phases := deliveries.enter id .running }
  | succeeded {id : Nat} {outcome : Except PyError (Option (Result Value))} {result : Result Value}
      (running : deliveries.phases id = .running) (success : success? outcome = some result) :
      Steps memory key deliveries (.handle id outcome) { deliveries with
        phases := deliveries.enter id (.remembering result)
        successes := deliveries.successes ++ [result] }
  | failed {id : Nat} {outcome : Except PyError (Option (Result Value))} (running : deliveries.phases id = .running)
      (failure : success? outcome = none) :
      Steps memory key deliveries (.handle id outcome)
        { deliveries with phases := deliveries.enter id .finished }
  | wrote {id : Nat} {clock : ℚ} {result : Result Value} (remembering : deliveries.phases id = .remembering result) :
      Steps memory key deliveries (.write id clock) { deliveries with
        entries := memory.put clock key result deliveries.entries
        phases := deliveries.enter id .finished }

theorem steps {event : DeliveryEvent} (h : step memory key deliveries event = some after) :
    Steps memory key deliveries event after := by
  cases event with
  | read id clock =>
      rw [step] at h
      cases hphase : deliveries.phases id with
      | arrived =>
          rw [hphase] at h
          dsimp only at h
          cases hfound : (InMemoryIdempotencyStore.get clock key deliveries.entries).1 with
          | none =>
              rw [hfound] at h
              cases h
              exact .missed hphase hfound
          | some remembered =>
              rw [hfound] at h
              cases h
              exact .replayed hphase hfound
      | running | remembering | replayed | finished =>
          rw [hphase] at h
          cases h
  | handle id outcome =>
      rw [step] at h
      cases hphase : deliveries.phases id with
      | running =>
          rw [hphase] at h
          dsimp only at h
          cases hsuccess : success? outcome with
          | none =>
              rw [hsuccess] at h
              cases h
              exact .failed hphase hsuccess
          | some result =>
              rw [hsuccess] at h
              cases h
              exact .succeeded hphase hsuccess
      | arrived | remembering | replayed | finished =>
          rw [hphase] at h
          cases h
  | write id clock =>
      rw [step] at h
      cases hphase : deliveries.phases id with
      | remembering result =>
          rw [hphase] at h
          cases h
          exact .wrote hphase
      | arrived | running | replayed | finished =>
          rw [hphase] at h
          cases h

-- What a delivery that misses leaves in the store when no other comes between.
theorem run_missed {id : Nat} (harrived : deliveries.phases id = .arrived) {now later : ℚ}
    {outcome : Except PyError (Option (Result Value))}
    (hmissing : (InMemoryIdempotencyStore.get now key deliveries.entries).1 = none) :
    (Data.Transition.run (step memory key) deliveries (.read id now :: .handle id outcome ::
      (success? outcome).toList.map fun _ => .write id later)).map entries =
        some (match success? outcome with
          | some result => memory.put later key result (InMemoryIdempotencyStore.get now key deliveries.entries).2
          | none => (InMemoryIdempotencyStore.get now key deliveries.entries).2) := by
  rw [Data.Transition.run, step]
  simp only [harrived, hmissing, Option.bind_some]
  rw [Data.Transition.run, step]
  simp only [enter_self]
  cases hsuccess : success? outcome with
  | none => rfl
  | some result =>
      simp only [Option.bind_some, Option.toList, List.map_cons, List.map_nil]
      rw [Data.Transition.run, step]
      simp only [enter_self]
      rfl

-- A handler succeeds only while no other delivery runs it, and no delivery reads
-- between a success and its write.
def InTurn (deliveries : Deliveries) : DeliveryEvent → Prop
  | .read _ _ => ∀ other result, deliveries.phases other ≠ .remembering result
  | .handle id outcome => (success? outcome).isSome = true → ∀ other, other ≠ id → deliveries.phases other ≠ .running
  | .write _ _ => True

-- Nothing has succeeded, a success is to be written, or it is there for good.
inductive Stage (key : StoreKey) (deliveries : Deliveries) : Prop
  | fresh (none : deliveries.successes = []) (stored : deliveries.entries.get? key = Option.none)
      (idle : ∀ id result, deliveries.phases id ≠ .remembering result)
  | writing (result : Result Value) (id : Nat) (one : deliveries.successes = [result])
      (stored : deliveries.entries.get? key = Option.none) (phase : deliveries.phases id = .remembering result)
      (others : ∀ other, other ≠ id →
        deliveries.phases other ≠ .running ∧ ∀ left, deliveries.phases other ≠ .remembering left)
  | kept (result : Result Value) (one : deliveries.successes = [result])
      (stored : deliveries.entries.get? key = some (result, Option.none))
      (idle : ∀ id, deliveries.phases id ≠ .running ∧ ∀ left, deliveries.phases id ≠ .remembering left)

-- What all deliveries but one are, and that one has become, all are.
theorem enter_all (P : Phase → Prop) {id : Nat} {phase : Phase} (hphase : P phase)
    (h : ∀ other, other ≠ id → P (deliveries.phases other)) (other : Nat) : P (deliveries.enter id phase other) := by
  by_cases hother : other = id
  · rw [hother, enter_self]
    exact hphase
  · rw [enter_other _ hother]
    exact h other hother

-- Neither running its handler nor about to write.
def Idle (phase : Phase) : Prop := phase ≠ .running ∧ ∀ result, phase ≠ .remembering result

theorem Stage.read {id : Nat} {clock : ℚ} (h : Stage key deliveries) (ok : InTurn deliveries (.read id clock))
    (hstep : step memory key deliveries (.read id clock) = some after) :
    Stage key after ∧ ∀ result ∈ deliveries.successes, after.phases id = .replayed result := by
  cases h with
  | fresh none stored idle =>
      have hmissing := InMemoryIdempotencyStore.get_missing clock stored
      rw [none]
      refine ⟨?_, fun result hmem => nomatch hmem⟩
      cases steps hstep with
      | replayed arrived found =>
          rw [hmissing] at found
          cases found
      | missed arrived missing =>
          rw [hmissing]
          refine .fresh none stored ?_
          intro other result
          exact enter_all (fun phase => phase ≠ .remembering result) Phase.noConfusion
            (fun other _ => idle other result) other
  | writing result other one stored phase others => exact absurd phase (ok other result)
  | kept result one stored idle =>
      have hfound := InMemoryIdempotencyStore.get_lasting clock stored
      cases steps hstep with
      | missed arrived missing =>
          rw [hfound] at missing
          cases missing
      | replayed arrived found =>
          rw [hfound] at found ⊢
          cases found
          refine ⟨.kept result one stored ?_, ?_⟩
          · exact enter_all Idle ⟨Phase.noConfusion, fun _ => Phase.noConfusion⟩ fun other _ => idle other
          · intro success hmem
            rw [one] at hmem
            cases List.mem_singleton.mp hmem
            exact enter_self id _

theorem Stage.handle {id : Nat} {outcome : Except PyError (Option (Result Value))} (h : Stage key deliveries)
    (ok : InTurn deliveries (.handle id outcome))
    (hstep : step memory key deliveries (.handle id outcome) = some after) : Stage key after := by
  cases h with
  | fresh none stored idle =>
      cases steps hstep with
      | failed running failure =>
          refine .fresh none stored ?_
          intro other result
          exact enter_all (fun phase => phase ≠ .remembering result) Phase.noConfusion
            (fun other _ => idle other result) other
      | @succeeded _ _ result running success =>
          have halone := ok (Option.isSome_iff_exists.mpr ⟨result, success⟩)
          refine .writing result id (by rw [none]; rfl) stored (enter_self id _) ?_
          intro other hother
          dsimp only
          rw [enter_other _ hother]
          exact ⟨halone other hother, idle other⟩
  | writing result writer one stored phase others =>
      have hrunning : deliveries.phases id = .running := by
        cases steps hstep with
        | failed running | succeeded running => exact running
      by_cases hid : id = writer
      · rw [hid, phase] at hrunning
        cases hrunning
      · exact absurd hrunning (others id hid).1
  | kept result one stored idle =>
      cases steps hstep with
      | failed running | succeeded running => exact absurd running (idle id).1

theorem Stage.write {id : Nat} {clock : ℚ} (h : Stage key deliveries)
    (hstep : step {} key deliveries (.write id clock) = some after) : Stage key after := by
  cases steps hstep with
  | @wrote _ _ written remembering =>
      cases h with
      | fresh none stored idle => exact absurd remembering (idle id written)
      | kept result one stored idle => exact absurd remembering ((idle id).2 written)
      | writing result writer one stored phase others =>
          have hid : id = writer := by
            by_contra hne
            exact (others id hne).2 written remembering
          subst hid
          rw [phase] at remembering
          cases remembering
          refine .kept _ one (Dict.get?_set_self ..) ?_
          exact enter_all Idle ⟨Phase.noConfusion, fun _ => Phase.noConfusion⟩ others

theorem Stage.step {event : DeliveryEvent} (h : Stage key deliveries) (ok : InTurn deliveries event)
    (hstep : Deliveries.step {} key deliveries event = some after) : Stage key after := by
  cases event with
  | read id clock => exact (h.read ok hstep).1
  | handle id outcome => exact h.handle ok hstep
  | write id clock => exact h.write hstep

theorem Stage.once (h : Stage key deliveries) : deliveries.successes.length ≤ 1 := by
  cases h with
  | fresh none => rw [none]; exact Nat.zero_le 1
  | writing result id one | kept result one => rw [one]; exact le_rfl

-- One success at most, and whoever reads after it replays it.
theorem succeeds_once {entries : Remembered} (hfresh : entries.get? key = none)
    (hrun : Reaches (step {} key) InTurn ⟨entries, fun _ => .arrived, []⟩ deliveries) :
    deliveries.successes.length ≤ 1 ∧
      ∀ id clock after, InTurn deliveries (.read id clock) → step {} key deliveries (.read id clock) = some after →
        ∀ result ∈ deliveries.successes, after.phases id = .replayed result := by
  have hstart : Stage key ⟨entries, fun _ => .arrived, []⟩ := .fresh rfl hfresh fun _ _ => Phase.noConfusion
  have h : Stage key deliveries := hrun.invariant hstart fun _ _ _ hs ok hstep => hs.step ok hstep
  exact ⟨h.once, fun _ _ _ ok hstep => (h.read ok hstep).2⟩

-- Two deliveries overlap, of which the second raises and the first succeeds; a third replays that.
theorem succeeds_once_overlapping : ∃ deliveries : Deliveries,
    deliveries.successes = [Result.ok none] ∧ deliveries.phases 2 = .replayed (Result.ok none) ∧
      deliveries.successes.length ≤ 1 ∧
      ∀ id clock after, InTurn deliveries (.read id clock) →
        step {} (.text "k") deliveries (.read id clock) = some after →
          ∀ result ∈ deliveries.successes, after.phases id = .replayed result := by
  let start : Deliveries := ⟨Dict.empty, fun _ => .arrived, []⟩
  let first : Deliveries := { start with phases := start.enter 0 .running }
  let both : Deliveries := { first with phases := first.enter 1 .running }
  let raised : Deliveries := { both with phases := both.enter 1 .finished }
  let succeeded : Deliveries :=
    { raised with phases := raised.enter 0 (.remembering (Result.ok none)), successes := [Result.ok none] }
  have hfirst : Reaches (step {} (.text "k")) InTurn start first :=
    .next (a := .read 0 0) .refl (fun _ _ => Phase.noConfusion) rfl
  have hboth : Reaches (step {} (.text "k")) InTurn start both := by
    refine .next (a := .read 1 1) hfirst (fun other result => ?_) rfl
    exact enter_all (fun phase => phase ≠ .remembering result) Phase.noConfusion (fun _ _ => Phase.noConfusion) other
  have hraised : Reaches (step {} (.text "k")) InTurn start raised :=
    .next (a := .handle 1 (.error ⟨.valueError, []⟩)) hboth (fun hnone => nomatch hnone) rfl
  have hsucceeded : Reaches (step {} (.text "k")) InTurn start succeeded := by
    refine .next (a := .handle 0 (.ok (some (Result.ok none)))) hraised (fun _ other hother => ?_) rfl
    by_cases hone : other = 1 <;> simp [raised, both, first, start, enter, hone, hother]
  have hkept : Reaches (step {} (.text "k")) InTurn start _ :=
    .next (a := .write 0 2) hsucceeded trivial rfl
  have hidle (other : Nat) (result : Result Value) : succeeded.enter 0 .finished other ≠ .remembering result := by
    by_cases hzero : other = 0 <;> by_cases hone : other = 1 <;>
      simp [succeeded, raised, both, first, start, enter, hzero, hone]
  have hreplayed : Reaches (step {} (.text "k")) InTurn start _ := .next (a := .read 2 3) hkept hidle rfl
  have h := succeeds_once rfl hreplayed
  exact ⟨_, rfl, rfl, h.1, h.2⟩

-- Two deliveries that both read before either writes both succeed.
theorem not_succeeds_once : ¬∀ (key : StoreKey) (deliveries : Deliveries),
    Reaches (step {} key) (fun _ _ => True) ⟨Dict.empty, fun _ => .arrived, []⟩ deliveries →
      deliveries.successes.length ≤ 1 := by
  intro h
  let answered : Except PyError (Option (Result Value)) := .ok (some (Result.ok none))
  have hrun : Reaches (step {} (.text "k")) (fun _ _ => True) ⟨Dict.empty, fun _ => .arrived, []⟩ _ :=
    .next (.next (.next (.next .refl trivial (rfl : step _ _ _ (.read 0 0) = some _)) trivial
      (rfl : step _ _ _ (.read 1 0) = some _)) trivial (rfl : step _ _ _ (.handle 0 answered) = some _)) trivial
        (rfl : step _ _ _ (.handle 1 answered) = some _)
  exact absurd (h _ _ hrun) (by decide)

end Deliveries

end Deliveries

section Middleware

open Deliveries

variable {ω : Type} [UnicodeData] {memory : InMemoryIdempotencyStore} {clock : ω → ℚ} {keyHeaders : List Str}
  {next : Step ω Unit} {message : Context × ω} {json : Json} {key : StoreKey} {deliveries : Deliveries} {id : Nat}

-- One message through the middleware is a delivery that takes its steps in a row.
theorem deliver_replayed (hkey : keyOf message.1.headers keyHeaders = some json)
    (hhash : storeKey json = .ok (some key)) (harrived : deliveries.phases id = .arrived)
    {remembered : Result Value}
    (hfound : (InMemoryIdempotencyStore.get (clock message.2) key deliveries.entries).1 = some remembered) :
    step memory key deliveries (.read id (clock message.2)) = some ⟨
      deliver memory clock keyHeaders rememberSuccess next deliveries.entries message,
      deliveries.enter id (.replayed remembered), deliveries.successes⟩ := by
  unfold deliver
  rw [idempotency_keyed hkey, InMemoryIdempotencyStore.store_get hhash, hfound]
  simp only [step, harrived, hfound]

theorem deliver_missed (hkey : keyOf message.1.headers keyHeaders = some json)
    (hhash : storeKey json = .ok (some key)) {entries : Remembered}
    (hmissing : (InMemoryIdempotencyStore.get (clock message.2) key entries).1 = none)
    {outcome : Except PyError Unit} {after : Context} {later : ω} (hnext : next message = (outcome, (after, later))) :
    deliver memory clock keyHeaders rememberSuccess next entries message =
      match success? (outcome.map fun _ => after.result) with
      | some result =>
          memory.put (clock later) key result (InMemoryIdempotencyStore.get (clock message.2) key entries).2
      | none => (InMemoryIdempotencyStore.get (clock message.2) key entries).2 := by
  unfold deliver
  rw [idempotency_keyed hkey, InMemoryIdempotencyStore.store_get hhash, hmissing]
  have hbeside : beside next (message.1, ((InMemoryIdempotencyStore.get (clock message.2) key entries).2,
      message.2)) = (outcome, (after, ((InMemoryIdempotencyStore.get (clock message.2) key entries).2, later))) := by
    simp only [beside, hnext]
  dsimp only
  rw [Py.bind_apply, hbeside]
  cases outcome with
  | error error => rfl
  | ok value =>
      dsimp only
      cases hresult : after.result with
      | none =>
          rw [remember_missing _ _ _ hresult]
          simp only [Except.map, success?]
      | some result =>
          unfold remember
          rw [Py.bind_ok (Py.get_apply _)]
          simp only [hresult, rememberSuccess]
          rw [Py.lift_ok_bind]
          cases hsuccess : result.isSuccessful with
          | false => simp [Except.map, success?, hsuccess]
          | true =>
              simp only [Except.map, success?, hsuccess, if_true]
              rw [inWorld, InMemoryIdempotencyStore.store_put hhash]

theorem deliver_ran (hkey : keyOf message.1.headers keyHeaders = some json)
    (hhash : storeKey json = .ok (some key)) (harrived : deliveries.phases id = .arrived)
    (hmissing : (InMemoryIdempotencyStore.get (clock message.2) key deliveries.entries).1 = none)
    {outcome : Except PyError Unit} {after : Context} {later : ω} (hnext : next message = (outcome, (after, later))) :
    (Data.Transition.run (step memory key) deliveries
      (.read id (clock message.2) :: .handle id (outcome.map fun _ => after.result) ::
        (success? (outcome.map fun _ => after.result)).toList.map fun _ => .write id (clock later))).map entries =
      some (deliver memory clock keyHeaders rememberSuccess next deliveries.entries message) := by
  rw [run_missed harrived hmissing, deliver_missed hkey hhash hmissing hnext]

end Middleware

end Benzene.Resilience
