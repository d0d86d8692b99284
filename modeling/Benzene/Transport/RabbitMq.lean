import Benzene.Transport.Metadata

namespace Benzene.Transport.RabbitMq

open Benzene.Data Benzene.Results Benzene.Core

-- A delivery as `basic_get` hands it over: its frame, its headers and its body.
structure Delivery where
  deliveryTag : Nat := 0
  routingKey : Native := .none
  headers : List (Str × Native) := []
  body : Native := .none

-- What the channel is told of a delivery.
inductive Settling
  | basicAck (deliveryTag : Nat)
  | basicNack (deliveryTag : Nat) (requeue : Bool)
deriving DecidableEq

structure RabbitMqConsumerApp (σ : Type) where
  application : BenzeneMessageApplication σ
  metadataKeys : MetadataKeys := {}
  settlement : Settlement := {}

structure LoopOptions (σ : Type) where
  ack : Bool := true
  requeue : Bool := true
  onResult : Option (Delivery → Result Json → Py PyError σ Unit) := none

variable [UnicodeData] {σ : Type}

def decodeRabbitmqMessage (keys : MetadataKeys) (delivery : Delivery) : Except PyError Fields :=
  decodeMessage keys delivery.headers delivery.routingKey delivery.body

def RabbitMqConsumerApp.handleMessage (app : RabbitMqConsumerApp σ) (delivery : Delivery) :
    Py PyError σ (Result Json) := do
  let outcome ← dispatchOneWay app.application app.settlement
    (Py.lift (decodeRabbitmqMessage app.metadataKeys delivery))
  return outcome.result

variable (app : RabbitMqConsumerApp σ) (options : LoopOptions σ)

-- A delivery is handled, and its result shown to the caller.
def attend (delivery : Delivery) : Py PyError σ (Result Json) := do
  let result ← app.handleMessage delivery
  match options.onResult with
  | some onResult => onResult delivery result
  | none => pure ()
  return result

def settling (delivery : Delivery) (result : Result Json) : Settling :=
  if app.settlement.acknowledges result then .basicAck delivery.deliveryTag
  else .basicNack delivery.deliveryTag options.requeue

-- One round for each pull; an empty queue brings no delivery.
def runConsumerLoop : List (Option Delivery) → Py PyError (σ × List Settling) Unit
  | [] => pure ()
  | none :: rest => runConsumerLoop rest
  | some delivery :: rest => do
      let result ← Py.onFirst (attend app options delivery)
      if options.ack then
        Py.modify fun state => (state.1, state.2 ++ [settling app options delivery result])
      runConsumerLoop rest

end Benzene.Transport.RabbitMq
