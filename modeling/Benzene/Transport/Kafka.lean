import Benzene.Transport.Metadata
import Mathlib.Data.List.Pairwise
import Mathlib.Logic.Function.Basic

namespace Benzene.Transport.Kafka

open Benzene.Data Benzene.Results Benzene.Core
open BenzeneMessageApplication (declaredTopic)

section Consumer

structure KafkaMessage where
  headers : List (Str × Native) := []
  value : Native := .none
  topic : Native := .none
  partition : Nat := 0
  offset : Nat := 0
  -- The broker's own condition, that comes in place of a record.
  error : Bool := false
deriving DecidableEq

-- The partition, of its topic, that a record is from.
def KafkaMessage.source (message : KafkaMessage) : Native × Nat := (message.topic, message.partition)

-- The offset each partition is committed up to.
abbrev Offsets := Native × Nat → Option Nat

def commit (message : KafkaMessage) (offsets : Offsets) : Offsets :=
  Function.update offsets message.source (some (message.offset + 1))

structure KafkaConsumerApp (σ : Type) where
  application : BenzeneMessageApplication σ
  metadataKeys : MetadataKeys := {}
  settlement : Settlement := {}

structure LoopOptions (σ : Type) where
  commit : Bool := true
  stopOnFailure : Bool := false
  onResult : Option (KafkaMessage → Result Json → Py PyError σ Unit) := none

variable [UnicodeData] {σ : Type}

def decodeKafkaMessage (keys : MetadataKeys) (message : KafkaMessage) : Except PyError Fields :=
  decodeMessage keys message.headers message.topic message.value

def KafkaConsumerApp.handleMessage (app : KafkaConsumerApp σ) (message : KafkaMessage) :
    Py PyError σ (Result Json) := do
  let outcome ← dispatchOneWay app.application app.settlement
    (Py.lift (decodeKafkaMessage app.metadataKeys message))
  return outcome.result

variable (app : KafkaConsumerApp σ) (options : LoopOptions σ)

-- A record is handled, and its result shown to the caller.
def attend (message : KafkaMessage) : Py PyError σ (Result Json) := do
  let result ← app.handleMessage message
  match options.onResult with
  | some onResult => onResult message result
  | none => pure ()
  return result

-- What becomes of a record that has been handled.
def settle (message : KafkaMessage) (result : Result Json) : Py PyError (σ × Offsets) Unit :=
  if app.settlement.acknowledges result then
    if options.commit then Py.modify fun state => (state.1, commit message state.2) else pure ()
  else if options.stopOnFailure then do
    let fields ← Py.lift (decodeKafkaMessage {} message)
    Py.throw (messageHandlingError (declaredTopic fields).text result.status (Str.join ", " result.messages))
  else pure ()

-- One round for each poll; a poll may bring nothing, or no record.
def runConsumerLoop : List (Option KafkaMessage) → Py PyError (σ × Offsets) Unit
  | [] => pure ()
  | none :: rest => runConsumerLoop rest
  | some message :: rest =>
      if message.error then runConsumerLoop rest
      else do
        let result ← Py.onFirst (attend app options message)
        settle app options message result
        runConsumerLoop rest

-- A run goes on from where its first polls left it, unless one of them ended it.
def resume (more : List (Option KafkaMessage)) :
    Except PyError Unit × (σ × Offsets) → Except PyError Unit × (σ × Offsets)
  | (.ok (), after) => runConsumerLoop app options more after
  | (.error error, after) => (.error error, after)

theorem runConsumerLoop_append (polled more : List (Option KafkaMessage)) (state : σ × Offsets) :
    runConsumerLoop app options (polled ++ more) state =
      resume app options more (runConsumerLoop app options polled state) := by
  induction polled generalizing state with
  | nil => rfl
  | cons poll rest ih =>
      cases poll with
      | none => exact ih state
      | some message =>
          rw [List.cons_append, runConsumerLoop, runConsumerLoop]
          by_cases herror : message.error = true
          · rw [if_pos herror, if_pos herror]
            exact ih state
          · rw [if_neg herror, if_neg herror, Py.bind_apply, Py.bind_apply]
            cases Py.onFirst (attend app options message) state with
            | mk outcome next =>
                cases outcome with
                | error error => rfl
                | ok result =>
                    dsimp only
                    rw [Py.bind_apply, Py.bind_apply]
                    cases settle app options message result next with
                    | mk outcome last =>
                        cases outcome with
                        | error error => rfl
                        | ok value => exact ih last

end Consumer

section Order

def records : List (Option KafkaMessage) → List KafkaMessage
  | [] => []
  | none :: rest => records rest
  | some message :: rest => if message.error then records rest else message :: records rest

theorem records_cons {message : KafkaMessage} (hrecord : message.error = false) (rest : List (Option KafkaMessage)) :
    records (some message :: rest) = message :: records rest := by
  rw [records, if_neg (by simp [hrecord])]

theorem records_error {message : KafkaMessage} (herror : message.error = true) (rest : List (Option KafkaMessage)) :
    records (some message :: rest) = records rest := by
  rw [records, if_pos herror]

def InOrder (earlier later : KafkaMessage) : Prop := earlier.source = later.source → earlier.offset < later.offset

-- A restart does not poll the record again.
def Committed (offsets : Offsets) (record : KafkaMessage) : Prop :=
  ∃ next, offsets record.source = some next ∧ record.offset < next

-- What a partition is committed up to is not past the record.
def Ahead (offsets : Offsets) (record : KafkaMessage) : Prop :=
  ∀ next, offsets record.source = some next → next ≤ record.offset

theorem Ahead.not_committed {offsets : Offsets} {record : KafkaMessage} (h : Ahead offsets record) :
    ¬Committed offsets record := by
  rintro ⟨next, hnext, hlt⟩
  have hle := h next hnext
  omega

theorem Ahead.commit {offsets : Offsets} {earlier later : KafkaMessage} (h : Ahead offsets later)
    (horder : InOrder earlier later) : Ahead (commit earlier offsets) later := by
  intro next hnext
  unfold Kafka.commit at hnext
  by_cases hsource : later.source = earlier.source
  · rw [hsource, Function.update_self] at hnext
    cases hnext
    exact horder hsource.symm
  · rw [Function.update_of_ne hsource] at hnext
    exact h next hnext

-- Commits only move on.
def Onward (before after : Offsets) : Prop :=
  ∀ source next, before source = some next → ∃ later, after source = some later ∧ next ≤ later

theorem Onward.trans {a b c : Offsets} (h : Onward a b) (k : Onward b c) : Onward a c := by
  intro source next hnext
  obtain ⟨later, hlater, hle⟩ := h source next hnext
  obtain ⟨last, hlast, hle'⟩ := k source later hlater
  exact ⟨last, hlast, hle.trans hle'⟩

theorem Onward.commit {offsets : Offsets} {record : KafkaMessage} (h : Ahead offsets record) :
    Onward offsets (commit record offsets) := by
  intro source next hnext
  unfold Kafka.commit
  by_cases hsource : source = record.source
  · rw [hsource] at hnext ⊢
    have hle := h next hnext
    exact ⟨_, Function.update_self .., by omega⟩
  · exact ⟨next, by rw [Function.update_of_ne hsource, hnext], le_rfl⟩

theorem committed_commit {offsets after : Offsets} {record : KafkaMessage}
    (h : Onward (commit record offsets) after) : Committed after record := by
  obtain ⟨later, hlater, hle⟩ := h record.source (record.offset + 1) (Function.update_self ..)
  exact ⟨later, hlater, hle⟩

end Order

section AtLeastOnce

variable [UnicodeData] {σ : Type} (app : KafkaConsumerApp σ) (options : LoopOptions σ)

-- Polls whose records have all been handled and acknowledged, one after another.
inductive Passed : σ → List (Option KafkaMessage) → σ → Prop
  | nil (world : σ) : Passed world [] world
  | idle {world last : σ} {rest : List (Option KafkaMessage)} (h : Passed world rest last) :
      Passed world (none :: rest) last
  | error {world last : σ} {message : KafkaMessage} {rest : List (Option KafkaMessage)}
      (herror : message.error = true) (h : Passed world rest last) : Passed world (some message :: rest) last
  | acknowledged {world next last : σ} {message : KafkaMessage} {result : Result Json}
      {rest : List (Option KafkaMessage)} (hrecord : message.error = false)
      (handled : attend app options message world = (.ok result, next))
      (ok : app.settlement.acknowledges result = true) (h : Passed next rest last) :
      Passed world (some message :: rest) last

-- The next poll brings a record whose handling raises, or that is not acknowledged.
def Refused (world : σ) (polled : List (Option KafkaMessage)) : Prop :=
  ∃ message rest, polled = some message :: rest ∧ message.error = false ∧
    ((∃ error, (attend app options message world).1 = .error error) ∨
      ∃ result, (attend app options message world).1 = .ok result ∧ app.settlement.acknowledges result = false)

variable {app options}

theorem settle_acknowledged (hc : options.commit = true) {message : KafkaMessage} {result : Result Json}
    (ok : app.settlement.acknowledges result = true) (state : σ × Offsets) :
    settle app options message result state = (.ok (), (state.1, commit message state.2)) := by
  unfold settle
  rw [if_pos ok, if_pos hc]
  rfl

theorem settle_refused (hs : options.stopOnFailure = true) (message : KafkaMessage) {result : Result Json}
    (no : app.settlement.acknowledges result = false) (state : σ × Offsets) :
    ∃ error, settle app options message result state = (.error error, state) := by
  unfold settle
  rw [if_neg (by simp [no]), if_pos hs]
  cases hd : decodeKafkaMessage {} message with
  | error error => exact ⟨error, by rw [Py.bind_apply, Py.lift_apply]⟩
  | ok fields => exact ⟨_, by rw [Py.lift_ok_bind, Py.throw_apply]⟩

-- How one round that polls a record ends.
theorem round_refused (hs : options.stopOnFailure = true) {message : KafkaMessage} (hrecord : message.error = false)
    (rest : List (Option KafkaMessage)) {world : σ} (offsets : Offsets)
    (h : (∃ error, (attend app options message world).1 = .error error) ∨
      ∃ result, (attend app options message world).1 = .ok result ∧ app.settlement.acknowledges result = false) :
    ∃ error after, runConsumerLoop app options (some message :: rest) (world, offsets) =
      (.error error, (after, offsets)) := by
  rw [runConsumerLoop, if_neg (by simp [hrecord])]
  cases hattend : attend app options message world with
  | mk outcome after =>
      rw [hattend] at h
      cases h with
      | inl hraised =>
          obtain ⟨error, herror⟩ := hraised
          cases herror
          exact ⟨error, after, Py.bind_error (Py.onFirst_of hattend offsets)⟩
      | inr hno =>
          obtain ⟨result, hresult, no⟩ := hno
          cases hresult
          obtain ⟨error, hsettle⟩ := settle_refused hs message no (after, offsets)
          exact ⟨error, after, by rw [Py.bind_ok (Py.onFirst_of hattend offsets), Py.bind_error hsettle]⟩

theorem round_acknowledged (hc : options.commit = true) {message : KafkaMessage} (hrecord : message.error = false)
    (rest : List (Option KafkaMessage)) {world next : σ} (offsets : Offsets) {result : Result Json}
    (handled : attend app options message world = (.ok result, next))
    (ok : app.settlement.acknowledges result = true) :
    runConsumerLoop app options (some message :: rest) (world, offsets) =
      runConsumerLoop app options rest (next, commit message offsets) := by
  rw [runConsumerLoop, if_neg (by simp [hrecord]), Py.bind_ok (Py.onFirst_of handled offsets),
    Py.bind_ok (settle_acknowledged hc ok _)]

-- How far a run gets: everything passed is committed, and nothing after it.
structure Ends (app : KafkaConsumerApp σ) (options : LoopOptions σ) (polled : List (Option KafkaMessage))
    (world : σ) (offsets : Offsets) (passed rest : List (Option KafkaMessage)) (between : σ)
    (outcome : Except PyError Unit) (after : σ × Offsets) : Prop where
  run : runConsumerLoop app options polled (world, offsets) = (outcome, after)
  split : polled = passed ++ rest
  passing : Passed app options world passed between
  stopped : rest = [] ∧ outcome = .ok () ∧ after.1 = between ∨
    Refused app options between rest ∧ ∃ error, outcome = .error error
  onward : Onward offsets after.2
  committed : ∀ record ∈ records polled, Committed after.2 record ↔ record ∈ records passed

theorem ends_refused (hs : options.stopOnFailure = true) {polled : List (Option KafkaMessage)} {world : σ}
    {offsets : Offsets} (hahead : ∀ record ∈ records polled, Ahead offsets record)
    (h : Refused app options world polled) :
    ∃ outcome after, Ends app options polled world offsets [] polled world outcome after := by
  obtain ⟨message, rest, rfl, hrecord, hrefused⟩ := id h
  obtain ⟨error, after, hrun⟩ := round_refused hs hrecord rest offsets hrefused
  refine ⟨.error error, (after, offsets), hrun, rfl, .nil world, .inr ⟨h, error, rfl⟩, ?_, ?_⟩
  · exact fun source next hnext => ⟨next, hnext, le_rfl⟩
  · intro record hmem
    exact ⟨fun hcommitted => absurd hcommitted (hahead record hmem).not_committed, fun hnone => nomatch hnone⟩

theorem ends_acknowledged (hc : options.commit = true) {message : KafkaMessage} (hrecord : message.error = false)
    {polled passed rest : List (Option KafkaMessage)} {world next between : σ} {offsets : Offsets}
    {result : Result Json} {outcome : Except PyError Unit} {after : σ × Offsets}
    (horder : ∀ record ∈ records polled, InOrder message record) (hahead : Ahead offsets message)
    (handled : attend app options message world = (.ok result, next)) (ok : app.settlement.acknowledges result = true)
    (h : Ends app options polled next (commit message offsets) passed rest between outcome after) :
    Ends app options (some message :: polled) world offsets (some message :: passed) rest between outcome after where
  run := (round_acknowledged hc hrecord polled offsets handled ok).trans h.run
  split := by rw [h.split]; rfl
  passing := .acknowledged hrecord handled ok h.passing
  stopped := h.stopped
  onward := (Onward.commit hahead).trans h.onward
  committed := by
    rw [records_cons hrecord, records_cons hrecord]
    intro record hmem
    rw [List.mem_cons]
    cases List.mem_cons.mp hmem with
    | inl heq =>
        rw [heq]
        exact ⟨fun _ => .inl rfl, fun _ => committed_commit h.onward⟩
    | inr hrest =>
        rw [h.committed record hrest]
        refine ⟨Or.inr, ?_⟩
        intro hor
        refine hor.resolve_left ?_
        intro heq
        have hlt := horder record hrest (by rw [heq])
        rw [heq] at hlt
        omega

theorem ends (hc : options.commit = true) (hs : options.stopOnFailure = true) (polled : List (Option KafkaMessage))
    (world : σ) (offsets : Offsets) (horder : (records polled).Pairwise InOrder)
    (hahead : ∀ record ∈ records polled, Ahead offsets record) :
    ∃ passed rest between outcome after, Ends app options polled world offsets passed rest between outcome after := by
  induction polled generalizing world offsets with
  | nil =>
      refine ⟨[], [], world, .ok (), (world, offsets), rfl, rfl, .nil world, .inl ⟨rfl, rfl, rfl⟩, ?_, ?_⟩
      · exact fun source next hnext => ⟨next, hnext, le_rfl⟩
      · intro record hmem
        cases hmem
  | cons poll polled ih =>
      cases poll with
      | none =>
          obtain ⟨passed, rest, between, outcome, after, h⟩ := ih world offsets horder hahead
          exact ⟨none :: passed, rest, between, outcome, after, h.run, by rw [h.split]; rfl, .idle h.passing, h.stopped,
            h.onward, h.committed⟩
      | some message =>
          cases hrecord : message.error with
          | true =>
              rw [records_error hrecord] at horder hahead
              obtain ⟨passed, rest, between, outcome, after, h⟩ := ih world offsets horder hahead
              refine ⟨some message :: passed, rest, between, outcome, after, ?_, by rw [h.split]; rfl,
                .error hrecord h.passing, h.stopped, h.onward, ?_⟩
              · rw [runConsumerLoop, if_pos hrecord, h.run]
              · rw [records_error hrecord, records_error hrecord]
                exact h.committed
          | false =>
              cases hattend : attend app options message world with
              | mk outcome next =>
                  cases outcome with
                  | error error =>
                      obtain ⟨outcome, after, h⟩ := ends_refused hs hahead
                        ⟨message, polled, rfl, hrecord, .inl ⟨error, by rw [hattend]⟩⟩
                      exact ⟨_, _, _, outcome, after, h⟩
                  | ok result =>
                      cases ok : app.settlement.acknowledges result with
                      | false =>
                          obtain ⟨outcome, after, h⟩ := ends_refused hs hahead
                            ⟨message, polled, rfl, hrecord, .inr ⟨result, by rw [hattend], ok⟩⟩
                          exact ⟨_, _, _, outcome, after, h⟩
                      | true =>
                          rw [records_cons hrecord] at horder hahead
                          obtain ⟨hfirst, hrest⟩ := List.pairwise_cons.mp horder
                          have hmessage := hahead message List.mem_cons_self
                          obtain ⟨passed, rest, between, outcome, after, h⟩ := ih next (commit message offsets) hrest
                            fun record hmem => (hahead record (List.mem_cons_of_mem _ hmem)).commit (hfirst record hmem)
                          exact ⟨_, _, _, outcome, after, ends_acknowledged hc hrecord hfirst hmessage hattend ok h⟩

-- The loop ends at the first record that is not acknowledged or whose handling
-- raises, and a partition is committed up to there and no further.
theorem runConsumerLoop_atLeastOnce (app : KafkaConsumerApp σ) {options : LoopOptions σ}
    (hc : options.commit = true) (hs : options.stopOnFailure = true) {polled : List (Option KafkaMessage)}
    (world : σ) {offsets : Offsets} (horder : (records polled).Pairwise InOrder)
    (hahead : ∀ record ∈ records polled, Ahead offsets record) :
    ∃ passed rest between, ∃ outcome : Except PyError Unit, ∃ after : σ × Offsets,
      polled = passed ++ rest ∧ Passed app options world passed between ∧
      (∀ more, runConsumerLoop app options (polled ++ more) (world, offsets) =
        resume app options more (outcome, after)) ∧
      (rest = [] ∧ outcome = .ok () ∧ after.1 = between ∨
        Refused app options between rest ∧ ∃ error, outcome = .error error) ∧
      ∀ record ∈ records polled, Committed after.2 record ↔ record ∈ records passed := by
  obtain ⟨passed, rest, between, outcome, after, h⟩ := ends hc hs polled world offsets horder hahead
  refine ⟨passed, rest, between, outcome, after, h.split, h.passing, ?_, h.stopped, h.committed⟩
  intro more
  rw [runConsumerLoop_append, h.run]

end AtLeastOnce

section Answering

-- An application that refuses what is no object.
def picky : KafkaConsumerApp Unit :=
  ⟨⟨[fun _ => do
      let (context, _) ← Py.get
      setResult (match context.request with
        | .obj _ => Result.ok none
        | _ => Result.badRequest "no object")], "benzene-version"⟩, {}, {}⟩

def objectRecord (offset : Nat) : KafkaMessage := { offset, value := .other (Json.dumps (.obj [])) }

-- Three records of one partition, the second refused.
def polledRecords : List (Option KafkaMessage) :=
  [some (objectRecord 4), none, some { offset := 7, value := .other "1" }, some (objectRecord 8)]

theorem runConsumerLoop_atLeastOnce_picky : letI := UnicodeData.ascii
    (∃ passed rest between, ∃ outcome : Except PyError Unit, ∃ after : Unit × Offsets,
      polledRecords = passed ++ rest ∧ Passed picky { stopOnFailure := true } () passed between ∧
      (∀ more, runConsumerLoop picky { stopOnFailure := true } (polledRecords ++ more) ((), fun _ => none) =
        resume picky { stopOnFailure := true } more (outcome, after)) ∧
      (rest = [] ∧ outcome = .ok () ∧ after.1 = between ∨
        Refused picky { stopOnFailure := true } between rest ∧ ∃ error, outcome = .error error) ∧
      ∀ record ∈ records polledRecords, Committed after.2 record ↔ record ∈ records passed) ∧
    let ended := runConsumerLoop picky { stopOnFailure := true } polledRecords ((), fun _ => none)
    ended.1.isOk = false ∧ ended.2.2 (objectRecord 4).source = some 5 := by
  let _ := UnicodeData.ascii
  refine ⟨runConsumerLoop_atLeastOnce picky rfl rfl () ?_ ?_, by decide +kernel⟩
  · simp [polledRecords, records, objectRecord, InOrder]
  · intro record _ next hnext
    cases hnext

end Answering

end Benzene.Transport.Kafka
