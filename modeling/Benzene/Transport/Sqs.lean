import Benzene.Transport.Lambda

namespace Benzene.Transport.Sqs

open Benzene.Data Benzene.Results Benzene.Core
open Benzene.Transport.Lambda (getTruthy)

section Consumer

-- The queue's client, over the queue `ω`.
structure SqsClient (ω : Type) where
  receiveMessage : Py PyError ω Fields
  deleteMessage : Json → Py PyError ω Unit

structure SqsConsumerApp (σ : Type) where
  application : BenzeneMessageApplication σ
  metadataKeys : MetadataKeys := {}
  settlement : Settlement := {}

structure LoopOptions (σ : Type) where
  delete : Bool := true
  onResult : Option (Json → Result Json → Py PyError σ Unit) := none

-- `message["ReceiptHandle"]`.
def receiptHandle (message : Json) : Except PyError Json :=
  match message with
  | .obj fields =>
      match Entries.get? ("ReceiptHandle" : Str) fields with
      | some handle => .ok handle
      | none => .error ⟨.keyError, []⟩
  | _ => .error ⟨.typeError, []⟩

def inQueue {σ ω α : Type} (x : Py PyError ω α) : Py PyError (σ × ω) α := fun state =>
  match x state.2 with
  | (outcome, queue) => (outcome, (state.1, queue))

-- `response.get("Messages") or []`.
def messagesOf (response : Fields) : Except PyError (List Json) :=
  (Json.orElse (Json.getField response "Messages") (.arr [])).iter

variable [UnicodeData] {σ ω : Type}

def decodeAttributes (raw : Json) : Except PyError Attributes := do
  let attributes ← items (Json.orElse raw (.obj []))
  attributes.mapM fun entry => do
    return (entry.1, (← getTruthy entry.2 "StringValue" (.str [])).text)

def decodeSqsMessage (keys : MetadataKeys) (message : Json) : Except PyError Fields := do
  let attributes ← decodeAttributes (← message.get "MessageAttributes")
  let (topic, headers) := readMessageMetadata attributes keys
  return Lambda.message topic headers (← getTruthy message "Body" (.str []))

def SqsConsumerApp.handleMessage (app : SqsConsumerApp σ) (message : Json) : Py PyError σ (Result Json) := do
  let outcome ← dispatchOneWay app.application app.settlement (Py.lift (decodeSqsMessage app.metadataKeys message))
  return outcome.result

variable (app : SqsConsumerApp σ) (options : LoopOptions σ) (client : SqsClient ω)

-- A message is handled, and its result shown to the caller.
def attend (message : Json) : Py PyError σ (Result Json) := do
  let result ← app.handleMessage message
  match options.onResult with
  | some onResult => onResult message result
  | none => pure ()
  return result

-- What becomes of a message that has been handled.
def settle (message : Json) (result : Result Json) : Py PyError (σ × ω) Unit :=
  if options.delete && app.settlement.acknowledges result then do
    let handle ← Py.lift (receiptHandle message)
    inQueue (client.deleteMessage handle)
  else pure ()

def runBatch : List Json → Py PyError (σ × ω) Unit
  | [] => pure ()
  | message :: rest => do
      let result ← Py.onFirst (attend app options message)
      settle app options client message result
      runBatch rest

-- One round for each time that the caller lets the loop continue.
def runSqsConsumerLoop : Nat → Py PyError (σ × ω) Unit
  | 0 => pure ()
  | rounds + 1 => do
      let response ← inQueue client.receiveMessage
      let messages ← Py.lift (messagesOf response)
      runBatch app options client messages
      runSqsConsumerLoop rounds

end Consumer

section History

variable [UnicodeData] {σ ω : Type} (app : SqsConsumerApp σ) (options : LoopOptions σ) (client : SqsClient ω)

-- The messages of a batch that were handled, each with its result, and how the batch ended.
inductive Attended : List Json → σ × ω → List (Json × Result Json) → Except PyError Unit → σ × ω → Prop
  | done (state : σ × ω) : Attended [] state [] (.ok ()) state
  | raised {message : Json} {state : σ × ω} {error : PyError} {world : σ} (rest : List Json)
      (attending : attend app options message state.1 = (.error error, world)) :
      Attended (message :: rest) state [] (.error error) (world, state.2)
  | unsettled {message : Json} {state last : σ × ω} {result : Result Json} {error : PyError} {world : σ}
      (rest : List Json) (attending : attend app options message state.1 = (.ok result, world))
      (settling : settle app options client message result (world, state.2) = (.error error, last)) :
      Attended (message :: rest) state [(message, result)] (.error error) last
  | settled {message : Json} {state next last : σ × ω} {result : Result Json} {world : σ} {rest : List Json}
      {history : List (Json × Result Json)} {outcome : Except PyError Unit}
      (attending : attend app options message state.1 = (.ok result, world))
      (settling : settle app options client message result (world, state.2) = (.ok (), next))
      (later : Attended rest next history outcome last) :
      Attended (message :: rest) state ((message, result) :: history) outcome last

-- The same of a run of the loop.
inductive Ran : Nat → σ × ω → List (Json × Result Json) → Except PyError Unit → σ × ω → Prop
  | stopped (state : σ × ω) : Ran 0 state [] (.ok ()) state
  | unreceived {rounds : Nat} {state : σ × ω} {error : PyError} {queue : ω}
      (receiving : client.receiveMessage state.2 = (.error error, queue)) :
      Ran (rounds + 1) state [] (.error error) (state.1, queue)
  | unreadable {rounds : Nat} {state : σ × ω} {response : Fields} {error : PyError} {queue : ω}
      (receiving : client.receiveMessage state.2 = (.ok response, queue))
      (reading : messagesOf response = .error error) :
      Ran (rounds + 1) state [] (.error error) (state.1, queue)
  | ended {rounds : Nat} {state last : σ × ω} {response : Fields} {messages : List Json} {queue : ω}
      {history : List (Json × Result Json)} {error : PyError}
      (receiving : client.receiveMessage state.2 = (.ok response, queue)) (reading : messagesOf response = .ok messages)
      (attended : Attended app options client messages (state.1, queue) history (.error error) last) :
      Ran (rounds + 1) state history (.error error) last
  | next {rounds : Nat} {state between last : σ × ω} {response : Fields} {messages : List Json} {queue : ω}
      {history more : List (Json × Result Json)} {outcome : Except PyError Unit}
      (receiving : client.receiveMessage state.2 = (.ok response, queue)) (reading : messagesOf response = .ok messages)
      (attended : Attended app options client messages (state.1, queue) history (.ok ()) between)
      (later : Ran rounds between more outcome last) : Ran (rounds + 1) state (history ++ more) outcome last

variable {app options client}

theorem runBatch_attended (messages : List Json) (state : σ × ω) : ∃ history outcome last,
    runBatch app options client messages state = (outcome, last) ∧
      Attended app options client messages state history outcome last := by
  induction messages generalizing state with
  | nil => exact ⟨[], .ok (), state, rfl, .done state⟩
  | cons message rest ih =>
      rw [runBatch]
      cases hattend : attend app options message state.1 with
      | mk attending world =>
          have honFirst := Py.onFirst_of hattend state.2
          cases attending with
          | error error => exact ⟨[], .error error, (world, state.2), Py.bind_error honFirst, .raised rest hattend⟩
          | ok result =>
              rw [Py.bind_ok honFirst]
              cases hsettle : settle app options client message result (world, state.2) with
              | mk settling next =>
                  cases settling with
                  | error error =>
                      exact ⟨[(message, result)], .error error, next, Py.bind_error hsettle,
                        .unsettled rest hattend hsettle⟩
                  | ok value =>
                      rw [Py.bind_ok hsettle]
                      obtain ⟨history, outcome, last, hrun, hattended⟩ := ih next
                      exact ⟨(message, result) :: history, outcome, last, hrun, .settled hattend hsettle hattended⟩

theorem runSqsConsumerLoop_ran (rounds : Nat) (state : σ × ω) : ∃ history outcome last,
    runSqsConsumerLoop app options client rounds state = (outcome, last) ∧
      Ran app options client rounds state history outcome last := by
  induction rounds generalizing state with
  | zero => exact ⟨[], .ok (), state, rfl, .stopped state⟩
  | succ rounds ih =>
      rw [runSqsConsumerLoop]
      cases hreceive : client.receiveMessage state.2 with
      | mk receiving queue =>
          have hpolled : inQueue (σ := σ) client.receiveMessage state = (receiving, (state.1, queue)) := by
            unfold inQueue
            rw [hreceive]
          cases receiving with
          | error error => exact ⟨[], .error error, _, Py.bind_error hpolled, .unreceived hreceive⟩
          | ok response =>
              rw [Py.bind_ok hpolled]
              cases hread : messagesOf response with
              | error error => exact ⟨[], .error error, _, rfl, .unreadable hreceive hread⟩
              | ok messages =>
                  rw [Py.lift_ok_bind]
                  obtain ⟨history, outcome, between, hbatch, hattended⟩ :=
                    @runBatch_attended _ σ ω app options client messages (state.1, queue)
                  cases outcome with
                  | error error =>
                      exact ⟨history, .error error, between, Py.bind_error hbatch, .ended hreceive hread hattended⟩
                  | ok value =>
                      rw [Py.bind_ok hbatch]
                      obtain ⟨more, outcome, last, hrun, hran⟩ := ih between
                      exact ⟨history ++ more, outcome, last, hrun, .next hreceive hread hattended hran⟩

end History

section Durability

variable {ω : Type}

-- What a queue holds, which message each handle was given out for, and what was put under its id:
-- a message stays until it is deleted by a handle of its own.
structure QueueView (ω : Type) where
  holds : ω → Str → Prop
  leases : ω → Json → Str → Prop
  content : Str → Json × Json

-- What has happened to the queue, other than deletions.
structure QueueView.Keeps (view : QueueView ω) (queue queue' : ω) : Prop where
  holds : ∀ id, view.holds queue id → view.holds queue' id
  leases : ∀ handle id, view.leases queue handle id → view.leases queue' handle id

-- A message as it is received: with a handle, and with what it was sent with.
structure QueueView.Leased (view : QueueView ω) (queue : ω) (message : Json) (id : Str) : Prop where
  handle : ∃ handle, receiptHandle message = .ok handle ∧ view.leases queue handle id
  content : message.get "MessageAttributes" = .ok (view.content id).1 ∧ message.get "Body" = .ok (view.content id).2

structure SqsClient.Durable (client : SqsClient ω) (view : QueueView ω) : Prop where
  received : ∀ queue, view.Keeps queue (client.receiveMessage queue).2
  leased : ∀ {queue response queue'}, client.receiveMessage queue = (.ok response, queue') →
    ∀ {messages}, messagesOf response = .ok messages → ∀ message ∈ messages, ∃ id, view.Leased queue' message id
  deleted : ∀ handle queue id, view.holds queue id →
    view.holds (client.deleteMessage handle queue).2 id ∨ view.leases queue handle id
  outlasts : ∀ handle queue, ∀ other id,
    view.leases queue other id → view.leases (client.deleteMessage handle queue).2 other id
  exclusive : ∀ queue handle id other, view.leases queue handle id → view.leases queue handle other → id = other

theorem QueueView.Leased.keeps {view : QueueView ω} {queue queue' : ω} {message : Json} {id : Str}
    (h : view.Leased queue message id)
    (hkeeps : ∀ handle id, view.leases queue handle id → view.leases queue' handle id) :
    view.Leased queue' message id := by
  obtain ⟨handle, hhandle, hleases⟩ := h.handle
  exact ⟨⟨handle, hhandle, hkeeps handle id hleases⟩, h.content⟩

variable [UnicodeData] {σ : Type} {app : SqsConsumerApp σ} {options : LoopOptions σ} {client : SqsClient ω}
  {view : QueueView ω}

-- A message was handled and acknowledged.
def Acknowledges (app : SqsConsumerApp σ) (view : QueueView ω) (queue : ω) (history : List (Json × Result Json))
    (id : Str) : Prop :=
  ∃ entry ∈ history, app.settlement.acknowledges entry.2 = true ∧ view.Leased queue entry.1 id

-- What the queue has lost, it has been told of.
structure Accounts (app : SqsConsumerApp σ) (view : QueueView ω) (before : ω) (history : List (Json × Result Json))
    (after : ω) : Prop where
  holds : ∀ id, view.holds before id → view.holds after id ∨ Acknowledges app view after history id
  leases : ∀ handle id, view.leases before handle id → view.leases after handle id

omit [UnicodeData] in
theorem Acknowledges.mono {queue queue' : ω} {history more : List (Json × Result Json)} {id : Str}
    (h : Acknowledges app view queue history id) (hsub : history ⊆ more)
    (hkeeps : ∀ handle id, view.leases queue handle id → view.leases queue' handle id) :
    Acknowledges app view queue' more id := by
  obtain ⟨entry, hentry, ok, hleased⟩ := h
  exact ⟨entry, hsub hentry, ok, hleased.keeps hkeeps⟩

omit [UnicodeData] in
theorem QueueView.Keeps.accounts {before after : ω} (h : view.Keeps before after) : Accounts app view before [] after :=
  ⟨fun id hholds => .inl (h.holds id hholds), h.leases⟩

omit [UnicodeData] in
theorem Accounts.append {before between after : ω} {history more : List (Json × Result Json)}
    (h : Accounts app view before history between) (hmore : Accounts app view between more after) :
    Accounts app view before (history ++ more) after := by
  refine ⟨?_, fun handle id hleases => hmore.leases handle id (h.leases handle id hleases)⟩
  intro id hholds
  rcases h.holds id hholds with hkept | hacknowledged
  · exact (hmore.holds id hkept).imp_right fun hlater => hlater.mono (List.subset_append_right _ _) fun _ _ h => h
  · exact .inr (hacknowledged.mono (List.subset_append_left _ _) hmore.leases)

variable (hdurable : client.Durable view)
include hdurable

omit [UnicodeData] in
-- A message that is settled is deleted only when it is acknowledged.
theorem accounts_settle {message : Json} {result : Result Json} {world : σ} {queue : ω} {last : σ × ω}
    {outcome : Except PyError Unit} {id : Str} (hleased : view.Leased queue message id)
    (h : settle app options client message result (world, queue) = (outcome, last)) :
    Accounts app view queue [(message, result)] last.2 := by
  obtain ⟨handle, hhandle, hleases⟩ := hleased.handle
  unfold settle at h
  split at h
  · rename_i hdelete
    rw [hhandle, Py.lift_ok_bind] at h
    have hqueue : last.2 = (client.deleteMessage handle queue).2 := by
      unfold inQueue at h
      rw [← congrArg (fun result => result.2.2) h]
    rw [hqueue]
    refine ⟨?_, hdurable.outlasts handle queue⟩
    intro other hholds
    refine (hdurable.deleted handle queue other hholds).imp_right ?_
    intro hother
    obtain rfl := hdurable.exclusive queue handle id other hleases hother
    exact ⟨_, List.mem_singleton_self _, (Bool.and_eq_true _ _ ▸ hdelete).2,
      hleased.keeps (hdurable.outlasts handle queue)⟩
  · cases h
    exact ⟨fun other hholds => .inl hholds, fun _ _ hleases => hleases⟩

theorem accounts_attended {messages : List Json} {state last : σ × ω} {history : List (Json × Result Json)}
    {outcome : Except PyError Unit} (h : Attended app options client messages state history outcome last)
    (hleased : ∀ message ∈ messages, ∃ id, view.Leased state.2 message id) :
    Accounts app view state.2 history last.2 := by
  induction h with
  | done state => exact ⟨fun id hholds => .inl hholds, fun _ _ hleases => hleases⟩
  | raised rest attending => exact ⟨fun id hholds => .inl hholds, fun _ _ hleases => hleases⟩
  | unsettled rest attending settling =>
      obtain ⟨id, hmessage⟩ := hleased _ List.mem_cons_self
      exact accounts_settle hdurable hmessage settling
  | settled attending settling later ih =>
      obtain ⟨id, hmessage⟩ := hleased _ List.mem_cons_self
      have hsettled := accounts_settle hdurable hmessage settling
      refine hsettled.append (ih ?_)
      intro message hmem
      obtain ⟨id, hmessage⟩ := hleased message (List.mem_cons_of_mem _ hmem)
      exact ⟨id, hmessage.keeps hsettled.leases⟩

theorem accounts_ran {rounds : Nat} {state last : σ × ω} {history : List (Json × Result Json)}
    {outcome : Except PyError Unit}
    (h : Ran app options client rounds state history outcome last) : Accounts app view state.2 history last.2 := by
  induction h with
  | stopped state => exact ⟨fun id hholds => .inl hholds, fun _ _ hleases => hleases⟩
  | @unreceived _ state _ _ receiving | @unreadable _ state _ _ _ receiving =>
      have hkeeps := hdurable.received state.2
      rw [receiving] at hkeeps
      exact hkeeps.accounts
  | @ended _ state _ _ _ _ _ _ receiving reading attended =>
      have hkeeps := hdurable.received state.2
      rw [receiving] at hkeeps
      exact hkeeps.accounts.append (accounts_attended hdurable attended (hdurable.leased receiving reading))
  | @next _ state between _ _ _ _ history _ _ receiving reading attended later ih =>
      have hkeeps := hdurable.received state.2
      rw [receiving] at hkeeps
      have hbatch : Accounts app view state.2 history between.2 :=
        hkeeps.accounts.append (accounts_attended hdurable attended (hdurable.leased receiving reading))
      exact hbatch.append ih

-- Processes that run the loop one after another, each from a world of its own, on a queue to which
-- anything else but a deletion happens in between.
inductive Sessions (app : SqsConsumerApp σ) (options : LoopOptions σ) (client : SqsClient ω) (view : QueueView ω) :
    ω → List (Json × Result Json) → ω → Prop
  | none (queue : ω) : Sessions app options client view queue [] queue
  | meanwhile {before queue queue' : ω} {history : List (Json × Result Json)}
      (sessions : Sessions app options client view before history queue) (keeps : view.Keeps queue queue') :
      Sessions app options client view before history queue'
  | session {before queue : ω} {history more : List (Json × Result Json)} {rounds : Nat} {world : σ} {last : σ × ω}
      {outcome : Except PyError Unit} (sessions : Sessions app options client view before history queue)
      (run : runSqsConsumerLoop app options client rounds (world, queue) = (outcome, last))
      (ran : Ran app options client rounds (world, queue) more outcome last) :
      Sessions app options client view before (history ++ more) last.2

-- However its processes end, the loop loses no message: what is no longer on the queue has been
-- handled with a result that the settlement acknowledges.
theorem sessions_account {before after : ω} {history : List (Json × Result Json)}
    (h : Sessions app options client view before history after) : Accounts app view before history after := by
  induction h with
  | none => exact ⟨fun id hholds => .inl hholds, fun _ _ hleases => hleases⟩
  | meanwhile sessions keeps ih =>
      have happend := ih.append keeps.accounts
      rw [List.append_nil] at happend
      exact happend
  | session sessions run ran ih => exact ih.append (accounts_ran hdurable ran)

end Durability

section Sample

-- A queue that gives out every message it holds, each under a handle that is its id and with its
-- id for a topic.
def attributesOf (id : Str) : Json :=
  .obj [Json.field "topic" (.obj [Json.field "StringValue" (.str id), Json.field "DataType" (.str "String")])]

def sent (id : Str) : Json :=
  .obj [Json.field "MessageId" (.str id), Json.field "ReceiptHandle" (.str id),
    Json.field "MessageAttributes" (attributesOf id), Json.field "Body" (.str [])]

def listClient : SqsClient (List Str) where
  receiveMessage := fun queue => (.ok [Json.field "Messages" (.arr (queue.map sent))], queue)
  deleteMessage := fun handle queue => (.ok (), queue.filter fun id => Json.str id ≠ handle)

def listView : QueueView (List Str) where
  holds := fun queue id => id ∈ queue
  leases := fun _ handle id => handle = .str id
  content := fun id => (attributesOf id, .str [])

theorem messagesOf_list (queue : List Str) :
    messagesOf [Json.field "Messages" (.arr (queue.map sent))] = .ok (queue.map sent) := by
  cases queue <;> rfl

theorem durable_list : listClient.Durable listView where
  received := fun _ => ⟨fun _ h => h, fun _ _ h => h⟩
  leased := by
    intro queue response queue' hreceive messages hread message hmem
    cases hreceive
    rw [messagesOf_list] at hread
    cases hread
    obtain ⟨id, -, rfl⟩ := List.mem_map.mp hmem
    exact ⟨id, ⟨_, rfl, rfl⟩, rfl, rfl⟩
  deleted := by
    intro handle queue id hholds
    by_cases h : Json.str id = handle
    · exact .inr h.symm
    · exact .inl (List.mem_filter.mpr ⟨hholds, by simpa using h⟩)
  outlasts := fun _ _ _ _ h => h
  exclusive := fun _ _ _ _ h h' => Json.str.inj (h.symm.trans h')

-- An application that refuses one topic, and that a message of another brings down while its
-- database is.
def selective : SqsConsumerApp Bool :=
  ⟨⟨[fun _ => do
      let (context, isUp) ← Py.get
      if context.topic = .str "m-1" then setResult (Result.badRequest "unknown")
      else if isUp then setResult (Result.ok none)
      else Py.throw ⟨.exception "OSError", []⟩], "benzene-version"⟩, {}, {}⟩

def twoSent : List Str := ["m-1", "m-2"]

def oneSent : List Str := ["m-1"]

-- The first process ends at the second message, which the next deletes.
theorem sessions_account_selective : letI := UnicodeData.ascii
    (runSqsConsumerLoop selective {} listClient 1 (false, twoSent)).1.isOk = false ∧
      ∃ history, Sessions selective {} listClient listView twoSent history oneSent ∧
        Accounts selective listView twoSent history oneSent := by
  let _ := UnicodeData.ascii
  have hdown : runSqsConsumerLoop selective {} listClient 1 (false, twoSent) =
      (.error ⟨.exception "OSError", []⟩, false, twoSent) := by decide +kernel
  have hup : runSqsConsumerLoop selective {} listClient 1 (true, twoSent) = (.ok (), true, oneSent) := by
    decide +kernel
  obtain ⟨first, outcome, last, hrun, hfirst⟩ :=
    @runSqsConsumerLoop_ran _ _ _ selective {} listClient 1 (false, twoSent)
  rw [hdown] at hrun
  cases hrun
  obtain ⟨second, outcome, last, hrun, hsecond⟩ :=
    @runSqsConsumerLoop_ran _ _ _ selective {} listClient 1 (true, twoSent)
  rw [hup] at hrun
  cases hrun
  have hsessions : Sessions selective {} listClient listView twoSent ([] ++ first ++ second) oneSent :=
    .session (.session (.none _) hdown hfirst) hup hsecond
  exact ⟨congrArg (fun run => run.1.isOk) hdown, _, hsessions, sessions_account durable_list hsessions⟩

end Sample

end Benzene.Transport.Sqs
