import Benzene.Http.Client
import Benzene.Http.Query
import Benzene.Http.Routing

namespace Benzene.Http

open Benzene.Data Benzene.Results Benzene.Core
open BenzeneMessageApplication (declaredTopic declaredHeaders declaredBody)

section App

structure HttpRequest where
  method : Str
  path : Str
  queryString : Str := []
  headers : List (Str × Str) := []
  body : Str := []

structure BenzeneHttpApp (σ τ : Type) where
  router : HttpRouter σ τ
  application : BenzeneMessageApplication σ

def texts (entries : List (Str × Str)) : Fields := entries.map fun entry => (entry.1, .str entry.2)

variable [UnicodeData] {σ τ : Type}

-- Without an application of its own, an app takes its handlers from the router.
def benzeneHttpApp (router : HttpRouter σ τ) (pipeline : List (Middleware σ)) (versionKey : Str) :
    Except PyError (BenzeneHttpApp σ τ) := do
  let registry ← Registry.fromDefinitions [router.definitions.values]
  return ⟨router, benzeneMessageApplication registry pipeline versionKey⟩

-- A version segment of the path wins over the header, the header over the route's version.
def requestHeaders (versionHeader : Str) (endpoint : HttpEndpoint) (routeVersion : Option Str)
    (headers : List (Str × Str)) : Fields :=
  let lowered := lowerKeys (texts headers)
  match routeVersion with
  | some version => Entries.set versionHeader (.str version) lowered
  | none =>
      if endpoint.version ≠ [] ∧ ¬ (resolveVersion lowered versionHeader).truthy then
        Entries.set versionHeader (.str endpoint.version) lowered
      else lowered

-- The body, then the query, then the path: the most specific wins.
def requestData (parsed : Json) (query params : List (Str × Str)) : Json :=
  if query = [] ∧ params = [] then parsed
  else
    let base := match parsed with
      | .obj fields => fields
      | _ => []
    .obj (Entries.update (Entries.update base (texts query)) (texts params))

-- The envelope that a request is handed on as, or the answer to one that is not.
def requestEnvelope (router : HttpRouter σ τ) (versionHeader : Str) (request : HttpRequest) :
    Except HttpResponse Fields :=
  match router.matchRoute request.method request.path with
  | none => .error (httpProblemResponse (Result.failed Status.notFound
      (("No route for " : Str) ++ Str.upper request.method ++ (" " : Str) ++ request.path)))
  | some (endpoint, params) =>
      match posted request.body with
      | none => .error (httpProblemResponse (Result.failed Status.badRequest "Request body is not valid JSON"))
      | some parsed =>
          let data := requestData parsed (Entries.update [] (parseQsl request.queryString))
            (Entries.erase ("version" : Str) params)
          .ok [Json.field "topic" (.str endpoint.topic),
            Json.field "headers" (.obj (requestHeaders versionHeader endpoint
              (Entries.get? ("version" : Str) params) request.headers)),
            Json.field "body" (.str (Json.dumpsWith .spaced data))]

-- A request that is for none of the standard paths.
def BenzeneHttpApp.handle (app : BenzeneHttpApp σ τ) (request : HttpRequest) : Py PyError σ HttpResponse :=
  match requestEnvelope app.router app.application.versionHeader request with
  | .error response => pure response
  | .ok envelope => do
      let response ← app.application.handle envelope false
      return toHttpResponse response

end App

section Dispatch

variable [UnicodeData] {σ τ : Type}

-- The handler that an envelope's topic and version select.
def selects (registry : Registry σ τ) (versionHeader : Str) (envelope : Fields) :
    Except PyError (Option (HandlerDefinition σ τ)) := do
  let headers ← declaredHeaders envelope
  exactVersion registry (declaredTopic envelope) (resolveVersion headers versionHeader)

-- The handler that is selected is the one that runs, on every topic but the
-- empty one and the one that the router answers itself.
theorem handle_selects {registry : Registry σ τ} {versionKey : Str} {envelope : Fields} {parsed : Json}
    {definition : HandlerDefinition σ τ}
    (h : selects registry (Str.lower versionKey) envelope = .ok (some definition))
    (ht : (declaredTopic envelope).truthy = true) (hp : declaredTopic envelope ≠ .str pingTopic)
    (hb : declaredBody envelope = some parsed) (world : σ) :
    ∃ version, (benzeneMessageApplication registry [] versionKey).handle envelope false world =
      match runHandler definition parsed world with
      | (.error error, world') => (.error error, world')
      | (.ok result, world') => ((encodeResponse (some result)).map
          ((benzeneMessageApplication registry [] versionKey).echoVersion version), world') := by
  unfold selects at h
  rw [Except.bind_eq_ok] at h
  obtain ⟨headers, hh, hexact⟩ := h
  refine ⟨resolveVersion headers (Str.lower versionKey), ?_⟩
  have hversion : (benzeneMessageApplication registry [] versionKey).versionHeader =
    Str.lower versionKey := rfl
  rw [BenzeneMessageApplication.handle_parsed _ hh hb, run_messageRouter, hversion]
  have hrouter : messageRouter registry (pure ()) (⟨declaredTopic envelope, parsed, lowerKeys headers,
      resolveVersion headers (Str.lower versionKey), none, false⟩, world) =
      (do
        let result ← inWorld (runHandler definition parsed)
        setResult result) (⟨declaredTopic envelope, parsed, lowerKeys headers,
          resolveVersion headers (Str.lower versionKey), none, false⟩, world) := by
    unfold messageRouter
    rw [Py.bind_ok (Py.get_apply _)]
    simp only [ht, Bool.not_true, Bool.false_eq_true, if_false]
    rw [if_neg hp, hexact, Py.lift_ok_bind]
  rw [hrouter, Py.bind_apply]
  unfold inWorld
  cases runHandler definition parsed world with
  | mk outcome world' => cases outcome <;> rfl

end Dispatch

section Routes

variable {σ τ : Type}

-- One route of a registration, and the handler it was registered with.
structure Route (σ τ : Type) where
  method : Str
  path : Str
  definition : HandlerDefinition σ τ

def Registration.routes : Registration σ τ → List (Route σ τ)
  | .add fn =>
      match fn.message with
      | some definition => fn.routes.map fun route => ⟨route.1, route.2, definition⟩
      | none => []
  | .register method path definition => [⟨method, path, definition⟩]

def routesOf (calls : List (Registration σ τ)) : List (Route σ τ) := calls.flatMap Registration.routes

-- The endpoint that a route became.
def Route.Became (route : Route σ τ) (endpoint : HttpEndpoint) : Prop :=
  httpEndpoint route.method route.path route.definition.topic route.definition.version = .ok endpoint

theorem Route.Became.topic {route : Route σ τ} {endpoint : HttpEndpoint} (h : route.Became endpoint) :
    endpoint.topic = route.definition.topic ∧ endpoint.version = route.definition.version := by
  unfold Route.Became httpEndpoint at h
  split at h
  · cases h
    exact ⟨rfl, rfl⟩
  · cases h

-- What the registrations leave: an endpoint for each route, and a handler for
-- the key of each, which is the handler of one of them.
structure Holds (router : HttpRouter σ τ) (routes : List (Route σ τ)) : Prop where
  endpoints : List.Forall₂ Route.Became routes router.endpoints
  keyed : Keyed router.definitions
  kept : ∀ route ∈ routes, (router.definitions.get? route.definition.key).isSome
  held : ∀ key definition, router.definitions.get? key = some definition →
    ∃ route ∈ routes, route.definition = definition

theorem Holds.registerRoute {router router' : HttpRouter σ τ} {routes : List (Route σ τ)}
    (h : Holds router routes) (route : Route σ τ)
    (hr : router.registerRoute route.method route.path route.definition = .ok router') :
    Holds router' (routes ++ [route]) := by
  unfold HttpRouter.registerRoute at hr
  rw [Except.bind_eq_ok] at hr
  obtain ⟨endpoint, hendpoint, hrest⟩ := hr
  cases hrest
  refine ⟨List.rel_append h.endpoints (.cons hendpoint .nil), h.keyed.set _, ?_, ?_⟩
  · intro other ho
    show ((router.definitions.set _ _).get? other.definition.key).isSome
    rw [Dict.get?_set]
    by_cases hkey : route.definition.key = other.definition.key
    · rw [if_pos hkey]
      rfl
    · rw [if_neg hkey]
      cases List.mem_append.mp ho with
      | inl hmem => exact h.kept other hmem
      | inr hmem =>
          rw [List.mem_singleton] at hmem
          subst hmem
          exact absurd rfl hkey
  · intro key definition hget
    replace hget : (router.definitions.set route.definition.key route.definition).get? key =
      some definition := hget
    rw [Dict.get?_set] at hget
    by_cases hkey : route.definition.key = key
    · rw [if_pos hkey] at hget
      cases hget
      exact ⟨route, by simp, rfl⟩
    · rw [if_neg hkey] at hget
      obtain ⟨other, hmem, heq⟩ := h.held key definition hget
      exact ⟨other, List.mem_append_left _ hmem, heq⟩

theorem Holds.registerRoutes {routes : List (Route σ τ)} (definition : HandlerDefinition σ τ)
    {more : List (Str × Str)} {router router' : HttpRouter σ τ} (h : Holds router routes)
    (hr : router.registerRoutes definition more = .ok router') :
    Holds router' (routes ++ more.map fun route => ⟨route.1, route.2, definition⟩) := by
  induction more generalizing router routes with
  | nil =>
      cases hr
      rw [List.map_nil, List.append_nil]
      exact h
  | cons route rest ih =>
      unfold HttpRouter.registerRoutes at hr
      rw [List.foldlM_cons, Except.bind_eq_ok] at hr
      obtain ⟨middle, hfirst, hrest⟩ := hr
      have hmiddle : Holds middle (routes ++ [⟨route.1, route.2, definition⟩]) :=
        h.registerRoute ⟨route.1, route.2, definition⟩ hfirst
      have hall := ih hmiddle hrest
      rw [List.append_assoc, List.singleton_append] at hall
      exact hall

theorem Holds.call {router router' : HttpRouter σ τ} {routes : List (Route σ τ)} (h : Holds router routes)
    {call : Registration σ τ} (hr : router.call call = .ok router') :
    Holds router' (routes ++ call.routes) := by
  cases call with
  | register method path definition => exact h.registerRoute ⟨method, path, definition⟩ hr
  | add fn =>
      change router.add fn = .ok router' at hr
      unfold HttpRouter.add at hr
      cases hm : fn.message with
      | none =>
          rw [hm] at hr
          cases hr
      | some definition =>
          rw [hm] at hr
          by_cases he : fn.routes = []
          · simp only [he, if_true] at hr
            cases hr
          · simp only [he, if_false] at hr
            rw [Registration.routes, hm]
            exact h.registerRoutes definition hr

end Routes

section Serving

variable [UnicodeData] {σ τ : Type}

-- The endpoint that a request is matched to, and the registration it came from.
structure Served (calls : List (Registration σ τ)) (router : HttpRouter σ τ) (request : HttpRequest)
    (route : Route σ τ) (endpoint : HttpEndpoint) (params : Captures) : Prop where
  matched : router.matchRoute request.method request.path = some (endpoint, params)
  registered : ((routesOf calls).zip router.endpoints).find? (fun pair =>
    (pair.2.pathParams request.method request.path).isSome) = some (route, endpoint)

theorem lowerKeys_append (fields : Fields) (name : Str) (value : Json) :
    lowerKeys (fields ++ [(name, value)]) = Entries.set (Str.lower name) value (lowerKeys fields) := by
  unfold lowerKeys Entries.update
  rw [List.map_append, List.foldl_append]
  rfl

theorem mem_keys_lowerKeys {fields : Fields} {name : Str} (h : name ∈ Entries.keys (lowerKeys fields)) :
    ∃ field ∈ fields, Str.lower field.1 = name := by
  obtain ⟨entry, hentry, rfl⟩ := List.mem_map.mp h
  cases Entries.mem_update hentry with
  | inl hmem => cases hmem
  | inr hmem =>
      obtain ⟨field, hfield, rfl⟩ := List.mem_map.mp hmem
      exact ⟨field, hfield, rfl⟩

-- The route of a served request is a registered one, and became the endpoint.
theorem Served.route {calls : List (Registration σ τ)} {router : HttpRouter σ τ} {request : HttpRequest}
    {route : Route σ τ} {endpoint : HttpEndpoint} {params : Captures}
    (h : Served calls router request route endpoint params) (hr : Holds router (routesOf calls)) :
    route ∈ routesOf calls ∧ route.Became endpoint := by
  have hmem := List.mem_of_find?_eq_some h.registered
  exact ⟨(List.of_mem_zip hmem).1, (List.forall₂_iff_zip.mp hr.endpoints).2 hmem⟩

end Serving

section Runs

end Runs

end Benzene.Http
