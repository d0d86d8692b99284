import Benzene.Data.Dict
import Benzene.Data.Py
import Benzene.Data.Transition

namespace Benzene.Core

open Benzene.Data Benzene.Data.Transition

section Services

inductive Lifetime
  | singleton
  -- `SCOPED`.
  | perScope
  | transient
deriving DecidableEq

-- A service factory: what it does with the world, and the services it resolves on its way.
-- `none` is the value `None`, as for a service that is not registered.
inductive Factory (κ ν ω : Type)
  | returns (value : Option ν)
  | raises (error : PyError)
  | acts (f : ω → ω) (next : ω → Factory κ ν ω)
  | resolves (key : κ) (next : Except PyError (Option ν) → Factory κ ν ω)

-- `number` is the place of the registration among all actions on the container.
structure Registration (κ ν ω : Type) where
  factory : Factory κ ν ω
  lifetime : Lifetime
  number : Nat

-- A value, and the registration whose factory produced it.
structure Service (ν : Type) where
  value : Option ν
  madeBy : Nat
deriving DecidableEq

-- A container, its scopes, and the world of the factories.
structure Services (κ ν ω : Type) where
  registrations : Dict κ (Registration κ ν ω)
  singletons : Dict κ (Service ν)
  scopes : List (Dict κ (Service ν))
  world : ω

variable {κ ν ω : Type} [DecidableEq κ]

namespace Services

def create (world : ω) : Services κ ν ω := ⟨Dict.empty, Dict.empty, [], world⟩

def scope (services : Services κ ν ω) (id : Nat) : Dict κ (Service ν) := (services.scopes[id]?).getD Dict.empty

def keep (services : Services κ ν ω) (lifetime : Lifetime) (id : Nat) (key : κ) (service : Service ν) :
    Services κ ν ω :=
  match lifetime with
  | .singleton => { services with singletons := services.singletons.set key service }
  | .perScope => { services with scopes := services.scopes.set id ((services.scope id).set key service) }
  | .transient => services

-- What is kept of a service with that lifetime.
def kept (services : Services κ ν ω) (lifetime : Lifetime) (id : Nat) (key : κ) : Option (Service ν) :=
  match lifetime with
  | .singleton => services.singletons.get? key
  | .perScope => (services.scope id).get? key
  | .transient => none

section Resolving

variable (resolve : κ → Services κ ν ω → Except PyError (Option (Service ν)) × Services κ ν ω)

def build : Factory κ ν ω → Services κ ν ω → Except PyError (Option ν) × Services κ ν ω
  | .returns value, services => (.ok value, services)
  | .raises error, services => (.error error, services)
  | .acts f next, services => build (next services.world) { services with world := f services.world }
  | .resolves key next, services =>
      let (resolved, services) := resolve key services
      build (next (resolved.map fun service => service.bind Service.value)) services

end Resolving

-- `depth` bounds how deep factories resolve inside each other.
def tryGetService (id : Nat) : Nat → κ → Services κ ν ω → Except PyError (Option (Service ν)) × Services κ ν ω
  | 0, _, services => (.error .recursionError, services)
  | depth + 1, key, services =>
      match services.registrations.get? key with
      | none => (.ok none, services)
      | some registration =>
          match services.kept registration.lifetime id key with
          | some service => (.ok (some service), services)
          | none =>
              match build (tryGetService id depth) registration.factory services with
              | (.error error, services) => (.error error, services)
              | (.ok value, services) =>
                  let service : Service ν := ⟨value, registration.number⟩
                  (.ok (some service), services.keep registration.lifetime id key service)

-- `repr` shows a key as the text of the error does.
variable (repr : κ → Str)

def serviceNotRegistered (key : κ) : PyError :=
  ⟨.exception "ServiceNotRegisteredError", ("No service registered for " : Str) ++ repr key ++
    (". Register it on the Container with " : Str) ++
    ("add_singleton/add_scoped/add_transient (or add_instance for a fixed value), " : Str) ++
    ("or override it in a test via with_services(...)." : Str)⟩

def getService (id depth : Nat) (key : κ) (services : Services κ ν ω) : Except PyError ν × Services κ ν ω :=
  match tryGetService id depth key services with
  | (.error error, services) => (.error error, services)
  | (.ok service, services) =>
      match service.bind Service.value with
      | some value => (.ok value, services)
      | none => (.error (serviceNotRegistered repr key), services)

end Services

end Services

section Actions

variable {κ ν ω : Type} [DecidableEq κ]

-- What is done to a container and its scopes.
inductive Action (κ ν ω : Type)
  | add (key : κ) (factory : Factory κ ν ω) (lifetime : Lifetime)
  | addInstance (key : κ) (value : Option ν)
  | tryAdd (key : κ) (factory : Factory κ ν ω) (lifetime : Lifetime)
  | createScope
  | resolve (id depth : Nat) (key : κ)

namespace Services

def register (services : Services κ ν ω) (key : κ) (registration : Registration κ ν ω) : Services κ ν ω :=
  { services with registrations := services.registrations.set key registration }

def act (services : Services κ ν ω) (number : Nat) : Action κ ν ω → Services κ ν ω
  | .add key factory lifetime => services.register key ⟨factory, lifetime, number⟩
  | .addInstance key value =>
      { services with singletons := services.singletons.set key ⟨value, number⟩ }.register key
        ⟨.returns value, .singleton, number⟩
  | .tryAdd key factory lifetime =>
      if (services.registrations.get? key).isSome then services
      else services.register key ⟨factory, lifetime, number⟩
  | .createScope => { services with scopes := services.scopes ++ [Dict.empty] }
  | .resolve id depth key => (services.tryGetService id depth key).2

-- To a container, getting a service is resolving it, found or not.
theorem getService_act (repr : κ → Str) (id depth : Nat) (key : κ) (services : Services κ ν ω) (number : Nat) :
    (services.getService repr id depth key).2 = services.act number (.resolve id depth key) := by
  show _ = (services.tryGetService id depth key).2
  unfold getService
  rcases services.tryGetService id depth key with ⟨resolved, left⟩
  cases resolved with
  | error error => rfl
  | ok service =>
      dsimp only
      split <;> rfl

end Services

-- A container in use, and what has been done to it.
structure Session (κ ν ω : Type) where
  services : Services κ ν ω
  history : List (Action κ ν ω)

namespace Session

def start (world : ω) : Session κ ν ω := ⟨Services.create world, []⟩

-- Only a scope that was created resolves anything.
def step (session : Session κ ν ω) (action : Action κ ν ω) : Option (Session κ ν ω) :=
  match action with
  | .resolve id _ _ =>
      if id < session.services.scopes.length then
        some ⟨session.services.act session.history.length action, session.history ++ [action]⟩
      else none
  | _ => some ⟨session.services.act session.history.length action, session.history ++ [action]⟩

end Session

-- The registrations of a startup, then what overrides them, then the root scope.
def buildApplication (world : ω) (configureServices : List (Action κ ν ω))
    (overrides : List (List (Action κ ν ω))) : Option (Session κ ν ω) :=
  run Session.step (Session.start world) (configureServices ++ overrides.flatten ++ [.createScope])

end Actions

end Benzene.Core
