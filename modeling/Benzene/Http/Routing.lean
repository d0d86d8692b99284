import Benzene.Core.Registration

namespace Benzene.Http

open Benzene.Data Benzene.Core

section Template

-- A route's path: text to be met as it is, and placeholders.
inductive Part
  | literal (text : Str)
  | param (name : Str)

def slash : CodePoint := CodePoint.ofChar '/'

def isNameStart (c : CodePoint) : Bool :=
  (0x41 ≤ c.val && c.val ≤ 0x5A) || (0x61 ≤ c.val && c.val ≤ 0x7A) || c.val = 0x5F

def isNameChar (c : CodePoint) : Bool := isNameStart c || Json.isDigit c

-- A `\x7bname\x7d` placeholder right here, and the text after it.
def placeholder : Str → Option (Str × Str)
  | brace :: c :: rest =>
      if brace.val = 0x7B ∧ isNameStart c then
        match rest.dropWhile isNameChar with
        | closing :: tail =>
            if closing.val = 0x7D then some (c :: rest.takeWhile isNameChar, tail) else none
        | [] => none
      else none
  | _ => none

-- The parts of a path, `text` being what stands before the next placeholder.
def splitPath : Nat → Str → Str → List Part
  | 0, text, _ => [.literal text]
  | _ + 1, text, [] => [.literal text]
  | fuel + 1, text, c :: rest =>
      match placeholder (c :: rest) with
      | some (name, tail) => .literal text :: .param name :: splitPath fuel [] tail
      | none => splitPath fuel (text ++ [c]) rest

def paramNames (parts : List Part) : List Str :=
  parts.filterMap fun part => match part with
    | .literal _ => none
    | .param name => some name

-- A pattern has no two groups of one name.
def compilePath (path : Str) : Except PyError (List Part) :=
  let parts := splitPath path.length [] path
  if (paramNames parts).Nodup then .ok parts else .error ⟨.exception "error", []⟩

end Template

section Matching

-- Captured path parameters.
abbrev Captures := List (Str × Str)

-- The longest start of the text, of at most `n` code points and at least one,
-- after which the rest matches.
def matchLongest (next : Str → Option Captures) (text : Str) : Nat → Option (Str × Captures)
  | 0 => none
  | n + 1 =>
      match next (text.drop (n + 1)) with
      | some captures => some (text.take (n + 1), captures)
      | none => matchLongest next text n

-- The end of a pattern, `$`, also stands before a final line feed.
def atEnd (text : Str) : Bool := text = [] || text = "\n"

def matchParts : List Part → Str → Option Captures
  | [], text => if atEnd text then some [] else none
  | .literal expected :: rest, text => (Str.stripPrefix? expected text).bind (matchParts rest)
  | .param name :: rest, text =>
      (matchLongest (matchParts rest) text (text.takeWhile (· ≠ slash)).length).map fun found =>
        (name, found.1) :: found.2

end Matching

section Router

-- A route; its pattern is compiled from the path.
structure HttpEndpoint where
  method : Str
  path : Str
  topic : Str
  version : Str := []
  parts : List Part
  compiled : compilePath path = .ok parts

def httpEndpoint (method path topic version : Str) : Except PyError HttpEndpoint :=
  match h : compilePath path with
  | .ok parts => .ok ⟨method, path, topic, version, parts, h⟩
  | .error error => .error error

variable {σ τ : Type}

-- The routes in the order of their registration, and the handlers they resolve to.
structure HttpRouter (σ τ : Type) where
  endpoints : List HttpEndpoint
  definitions : Dict (Str × Str) (HandlerDefinition σ τ)

-- A function with what the decorators left on it.
structure Tagged (σ τ : Type) where
  repr : Str
  message : Option (HandlerDefinition σ τ)
  routes : List (Str × Str)

-- What is called on a router. The request type of an explicit registration is the
-- one given, or the one that the handler's annotation tells.
inductive Registration (σ τ : Type)
  | add (fn : Tagged σ τ)
  | register (method path : Str) (definition : HandlerDefinition σ τ)

namespace HttpRouter

def empty : HttpRouter σ τ := ⟨[], Dict.empty⟩

-- `_register`: one handler may own several routes.
def registerRoute (router : HttpRouter σ τ) (method path : Str) (definition : HandlerDefinition σ τ) :
    Except PyError (HttpRouter σ τ) := do
  let endpoint ← httpEndpoint method path definition.topic definition.version
  return ⟨router.endpoints ++ [endpoint], router.definitions.set definition.key definition⟩

def registerRoutes (router : HttpRouter σ τ) (definition : HandlerDefinition σ τ)
    (routes : List (Str × Str)) : Except PyError (HttpRouter σ τ) :=
  routes.foldlM (fun router route => router.registerRoute route.1 route.2 definition) router

def add (router : HttpRouter σ τ) (fn : Tagged σ τ) : Except PyError (HttpRouter σ τ) :=
  match fn.message with
  | none =>
      .error ⟨.valueError, fn.repr ++ ((" is not a @message-tagged handler; use register(method, path, " ++
        "topic, fn) for explicit registration." : String) : Str)⟩
  | some definition =>
      if fn.routes = [] then
        .error ⟨.valueError, fn.repr ++ ((" has no @http_endpoint route; add one, or use " ++
          "register(method, path, topic, fn)." : String) : Str)⟩
      else router.registerRoutes definition fn.routes

def register (router : HttpRouter σ τ) (method path : Str) (definition : HandlerDefinition σ τ) :
    Except PyError (HttpRouter σ τ) :=
  router.registerRoute method path definition

def call (router : HttpRouter σ τ) : Registration σ τ → Except PyError (HttpRouter σ τ)
  | .add fn => router.add fn
  | .register method path definition => router.register method path definition

-- A program's registrations, the first that raises ending it.
def build (calls : List (Registration σ τ)) : Except PyError (HttpRouter σ τ) := calls.foldlM call empty

end HttpRouter

end Router

section Lookup

variable [UnicodeData] {σ τ : Type}

namespace HttpEndpoint

def pathParams (endpoint : HttpEndpoint) (method path : Str) : Option Captures :=
  if Str.upper method ≠ endpoint.method then none else matchParts endpoint.parts path

end HttpEndpoint

-- The first endpoint that matches.
def firstMatch (method path : Str) : List HttpEndpoint → Option (HttpEndpoint × Captures)
  | [] => none
  | endpoint :: rest =>
      match endpoint.pathParams method path with
      | some params => some (endpoint, params)
      | none => firstMatch method path rest

-- `HttpRouter.match`.
def HttpRouter.matchRoute (router : HttpRouter σ τ) (method path : Str) : Option (HttpEndpoint × Captures) :=
  firstMatch method path router.endpoints

end Lookup

end Benzene.Http
