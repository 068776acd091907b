/-
Routes: what `route` registers, and how the two engines dispatch a request.

The VM cuts patterns and paths into their segments and compares these.  The interpreter
makes a regular expression of a pattern, in which a name in braces stands for one or more
bytes other than `/`, and matches the path as a whole.  Each engine keeps a registry of
its own, filled by the same calls of `route` while the application is set up.

The functions of the application are a parameter: `run` is what their calls do to the
response.  `selected` and `calls` are not part of the source: they record the route that
was selected, with its parameters, and the functions that were called, with theirs.
-/
import Look.Lib.Exec
import Look.Net.HttpParse

namespace Look

namespace Route

open Http (Bytes colon)

def slash : UInt8 := 47
def lbrace : UInt8 := 123
def rbrace : UInt8 := 125

/-! ## Path parameters -/

def hexValue (b : UInt8) : Option UInt8 :=
  if 48 ≤ b ∧ b ≤ 57 then some (b - 48)
  else if 65 ≤ b ∧ b ≤ 70 then some (b - 55)
  else if 97 ≤ b ∧ b ≤ 102 then some (b - 87)
  else none

/-- `isspace` in the C locale. -/
def isSpace (b : UInt8) : Bool := b == 32 || (9 ≤ b && b ≤ 13)

/-- `stoi` of two bytes to the base 16, as a `char`.  Blanks and a sign in front of the
number are taken, and what follows it is not looked at. -/
def stoiPair (a b : UInt8) : Option UInt8 :=
  match hexValue a with
  | some h => some (match hexValue b with | some l => 16 * h + l | none => h)
  | none =>
    if isSpace a ∨ a = 43 then hexValue b
    else if a = 45 then (hexValue b).map fun l => 0 - l
    else none

/-- `url_decode` of a path segment, in which `+` is itself. -/
def urlDecode : Bytes → Bytes
  | b :: x :: y :: rest =>
    match if b = 37 then stoiPair x y else none with
    | some c => c :: urlDecode rest
    | none => b :: urlDecode (x :: y :: rest)
  | short => short

/-- The parameters of a route, in the order of the pattern: names and values. -/
abbrev Params := List (Bytes × Bytes)

/-- The values of parameters, as arguments. -/
def values (params : Params) : List (Option Bytes) := params.map fun p => some p.2

/-! ## Matching in the VM -/

/-- `split`: the segments that are not empty. -/
def split (s : Bytes) : List Bytes := (s.splitOn slash).filter fun seg => !seg.isEmpty

/-- The name in a segment that is a parameter. -/
def paramName (seg : Bytes) : Option Bytes :=
  if 2 < seg.length ∧ seg.head? = some lbrace ∧ seg.getLast? = some rbrace then
    some ((seg.drop 1).take (seg.length - 2))
  else none

/-- The loop of `VM::route_match` over the segments of a pattern and of a path. -/
def matchSegments : List Bytes → List Bytes → Option Params
  | [], [] => some []
  | p :: ps, r :: rs =>
    match paramName p with
    | some name => (matchSegments ps rs).map ((name, urlDecode r) :: ·)
    | none => if p = r then matchSegments ps rs else none
  | _, _ => none

/-- `VM::route_match`. -/
def routeMatch (pattern path : Bytes) : Option Params := matchSegments (split pattern) (split path)

/-! ## Matching in the interpreter -/

/-- A piece of the regular expression: a byte, or `([^/]+)` with the name it is for. -/
inductive Token where
  | lit (b : UInt8)
  | param (name : Bytes)
deriving DecidableEq

/-- `parse_pattern`, with the name read so far inside braces.  A brace that is not closed
sends the loop of the source back to the beginning of the pattern, and it never ends. -/
def parsePattern : Option Bytes → Bytes → Option (List Token)
  | none, [] => some []
  | some _, [] => none
  | none, b :: rest =>
    if b = lbrace then parsePattern (some []) rest
    else (parsePattern none rest).map (.lit b :: ·)
  | some name, b :: rest =>
    if b = rbrace then (parsePattern none rest).map (.param name :: ·)
    else parsePattern (some (name ++ [b])) rest

/-- `param_names`. -/
def paramNames (tokens : List Token) : List Bytes :=
  tokens.filterMap fun
    | .lit _ => none
    | .param name => some name

/-- `([^/]+)` with what follows it: the longest text first. -/
def matchParam {α : Type} (next : Bytes → Option α) : Bytes → Option (Bytes × α)
  | [] => none
  | b :: rest =>
    if b = slash then none
    else
      match matchParam next rest with
      | some (v, a) => some (b :: v, a)
      | none => (next rest).map fun a => ([b], a)

/-- `regex_match` of a path, with the texts of the groups. -/
def regexMatch : List Token → Bytes → Option (List Bytes)
  | [], s => if s.isEmpty then some [] else none
  | .lit b :: tokens, s =>
    match s with
    | [] => none
    | c :: rest => if b = c then regexMatch tokens rest else none
  | .param _ :: tokens, s => (matchParam (regexMatch tokens) s).map fun (v, vs) => v :: vs

/-! ## Functions and their parameters -/

/-- What the engines look at in a function: its name and its parameters, of which the
last may take the rest of the arguments.  The parser puts an entry into `defaults` for
every parameter. -/
structure Signature where
  name : String
  arity : Nat
  variadic : Bool
  defaults : List Bool
  size : defaults.length = arity
  /-- The parameter that takes the rest exists and has no default. -/
  last : variadic = true → defaults.getLast? = some false

def Signature.hasDefault (sig : Signature) (i : Nat) : Bool := sig.defaults.getD i false

/-- The parameters that take one argument. -/
def Signature.fixed (sig : Signature) : Nat := if sig.variadic then sig.arity - 1 else sig.arity

/-- What a parameter gets: an argument (`none` is null), or its default. -/
inductive Arg where
  | given (v : Option Bytes)
  | default
deriving DecidableEq

structure Bound where
  args : List Arg
  rest : Option (List (Option Bytes))
deriving DecidableEq

/-- What ends a dispatch early: `RouteStopException`, `VmRouteDisabled`, or an error. -/
inductive Thrown where
  | stop
  | disabled
  | error (text : String)
deriving DecidableEq

/-- The parameters in a call of `VM::call_closure`, behind the prologue of the function. -/
def vmBind (sig : Signature) (args : List (Option Bytes)) : Bound where
  args := (List.range sig.fixed).map fun i =>
    match args[i]? with
    | some v => .given v
    | none => if sig.hasDefault i then .default else .given none
  rest := if sig.variadic then some (args.drop sig.fixed) else none

/-- Whether a parameter gets a value in `Interpreter::call_function`. -/
def Signature.filled (sig : Signature) (args : List (Option Bytes)) (i : Nat) : Bool :=
  decide (i < args.length) || sig.hasDefault i

def argAt (args : List (Option Bytes)) (i : Nat) : Arg :=
  match args[i]? with
  | some v => .given v
  | none => .default

/-- The parameters in a call of `Interpreter::call_function`.  When it fails, the text of
the error with the parameters in front of the one that got no value: their defaults have
been evaluated. -/
def interpBind (sig : Signature) (args : List (Option Bytes)) : Except (List Arg × String) Bound :=
  let expects := "Function '" ++ sig.name ++ "' expects "
  let got := " args, got " ++ toString args.length
  if sig.variadic = false ∧ sig.arity < args.length then
    .error ([], expects ++ "at most " ++ toString sig.arity ++ got)
  else if (List.range sig.fixed).all (sig.filled args) then
    .ok {
      args := (List.range sig.fixed).map (argAt args)
      rest := if sig.variadic then some (args.drop sig.fixed) else none }
  else
    .error (((List.range sig.fixed).takeWhile (sig.filled args)).map (argAt args),
      expects ++ (if sig.variadic then "at least " else "") ++ toString sig.fixed ++ got)

/-! ## The state of a dispatch -/

/-- What functions can change. -/
structure Response (σ : Type) where
  statusCode : Nat
  statusText : String
  output : Bytes
  user : σ
deriving DecidableEq

/-- What functions can read with `route::matched` and `route::param`. -/
structure Routing where
  matched : Bool
  params : List (Bytes × Bytes)
deriving DecidableEq

structure Serving (F σ : Type) where
  routing : Routing
  response : Response σ
  selected : Option (Nat × Params)
  calls : List (F × Bound)
deriving DecidableEq

def Serving.start {F σ : Type} (response : Response σ) : Serving F σ :=
  ⟨⟨false, []⟩, response, none, []⟩

/-- The functions of the application: what a call does to the response, with the defaults
of the parameters, and what the defaults alone do, when a call fails behind them. -/
structure Bodies (F σ : Type) where
  body : F → Bound → Routing → Exec (Response σ) Thrown Unit
  defaults : F → List Arg → Routing → Exec (Response σ) Thrown Unit

section Dispatch

variable {F σ : Type} (sig : F → Signature) (run : Bodies F σ)

abbrev Dispatch (F σ : Type) := Exec (Serving F σ) Thrown

/-- Call `f` with its parameters bound. -/
def call (f : F) (b : Bound) : Dispatch F σ Unit := fun s =>
  match run.body f b s.routing s.response with
  | .ok _ r => .ok () { s with response := r, calls := s.calls ++ [(f, b)] }
  | .error e r => .error e { s with response := r, calls := s.calls ++ [(f, b)] }
  | .timeout => .timeout

def evalDefaults (f : F) (args : List Arg) : Dispatch F σ Unit := fun s =>
  match run.defaults f args s.routing s.response with
  | .ok _ r => .ok () { s with response := r }
  | .error e r => .error e { s with response := r }
  | .timeout => .timeout

/-- `try { … } catch (const RouteStopException&)`: whether it was caught. -/
def catchStop (m : Dispatch F σ Unit) : Dispatch F σ Bool := fun s =>
  match m s with
  | .ok _ s' => .ok false s'
  | .error .stop s' => .ok true s'
  | .error e s' => .error e s'
  | .timeout => .timeout

/-- Run `m` for each element until it stops: whether it did. -/
def untilStop {α : Type} (m : α → Dispatch F σ Unit) : List α → Dispatch F σ Bool
  | [] => pure false
  | a :: rest => do
    if (← catchStop (m a)) then pure true else untilStop m rest

/-- `set_status(404)`. -/
def setNotFound (s : Serving F σ) : Serving F σ :=
  { s with response := { s.response with statusCode := 404, statusText := "Not Found" } }

def print (text : Bytes) (s : Serving F σ) : Serving F σ :=
  { s with response := { s.response with output := s.response.output ++ text } }

/-- The parameters in the map `route_params`, into which they are put in order. -/
def putParams (params : Params) (m : List (Bytes × Bytes)) : List (Bytes × Bytes) :=
  params.foldl (fun m (k, v) => AssocList.upsert k v m) m

/-! ## Registration -/

/-- A call of `route` while the application is set up.  A callback and a middleware is a
function or, as `none`, some other value.  `groups` are the calls of `route::group`
around it, the outermost first, with their prefixes and middlewares. -/
inductive Registration (F : Type) where
  | notFound (callback : Option F)
  | route (groups : List (Bytes × List (Option F))) (method pattern : Bytes)
      (middlewares : List (Option F)) (callback : Option F)

/-- The pattern behind the prefixes of its groups. -/
def fullPattern (groups : List (Bytes × List (Option F))) (pattern : Bytes) : Bytes :=
  groups.flatMap Prod.fst ++ pattern

/-- The middlewares behind those of the groups. -/
def allMiddlewares (groups : List (Bytes × List (Option F))) (middlewares : List (Option F)) :
    List (Option F) :=
  groups.flatMap Prod.snd ++ middlewares

/-- `RouteEntry`: `tokens` stands for `pattern_re` and `param_names`.  `site` is the
position of the call that registered it. -/
structure RouteEntry (F : Type) where
  site : Nat
  method : Bytes
  is404 : Bool
  tokens : List Token
  middlewares : List (Option F)
  callback : Option F
deriving DecidableEq

/-- `route` in the interpreter. -/
def registerEntry (site : Nat) : Registration F → Option (RouteEntry F)
  | .notFound callback => some ⟨site, ascii "404", true, [], [], callback⟩
  | .route groups method pattern middlewares callback =>
    (parsePattern none (fullPattern groups pattern)).map fun tokens =>
      ⟨site, method, false, tokens, allMiddlewares groups middlewares, callback⟩

/-- `VmRoute`. -/
structure VmRoute (F : Type) where
  site : Nat
  pattern : Bytes
  fn : F
  middlewares : List F

/-- `route` in the VM, and what `look_app_dispatch` makes of it: the middlewares that are
functions. -/
def registerVm (site : Nat) : Registration F → Option (VmRoute F)
  | .notFound (some fn) => some ⟨site, ascii "404:/", fn, []⟩
  | .route groups method pattern middlewares (some fn) =>
    some ⟨site, method ++ colon :: fullPattern groups pattern, fn,
      (allMiddlewares groups middlewares).filterMap id⟩
  | _ => none

/-- The registrations with their positions. -/
def sites (regs : List (Registration F)) : List (Nat × Registration F) :=
  regs.zipIdx.map fun (r, i) => (i, r)

/-- `route_registry_`; nothing when a registration does not end. -/
def registry (regs : List (Registration F)) : Option (List (RouteEntry F)) :=
  (sites regs).mapM fun x => registerEntry x.1 x.2

/-- `stable_partition` by whether the pattern has no brace. -/
def partition (routes : List (VmRoute F)) : List (VmRoute F) :=
  routes.filter (fun r => !r.pattern.contains lbrace) ++
    routes.filter fun r => r.pattern.contains lbrace

/-- The routes of the VM, in the order in which they are tried. -/
def vmRoutes (regs : List (Registration F)) : List (VmRoute F) :=
  partition ((sites regs).filterMap fun x => registerVm x.1 x.2)

/-! ## `VM::dispatch_routes` -/

def callClosure (f : F) (args : List (Option Bytes)) : Dispatch F σ Unit :=
  call run f (vmBind (sig f) args)

def anyMethod : Bytes := ascii "*"

/-- The check of one route against the request. -/
def vmTry (method path : Bytes) (r : VmRoute F) : Option (VmRoute F × Params) :=
  match breakOn [colon] r.pattern with
  | none => none
  | some (m, p) =>
    if m ≠ method ∧ m ≠ anyMethod then none
    else (routeMatch p path).map fun params => (r, params)

/-- Whether a route is registered under the method 404. -/
def vmIs404 (r : VmRoute F) : Bool :=
  match breakOn [colon] r.pattern with
  | none => false
  | some (m, _) => m == ascii "404"

def vmSelect (r : VmRoute F) (params : Params) (s : Serving F σ) : Serving F σ :=
  { s with
    routing := { s.routing with params := putParams params s.routing.params }
    selected := some (r.site, params) }

/-- The route that was found. `pinned` are the routes that `route_disabled` sends to the
interpreter. -/
def vmAnswer (pinned : Nat → Bool) (r : VmRoute F) (params : Params) : Dispatch F σ Unit := do
  Exec.modify (vmSelect r params)
  if pinned r.site then Exec.throw .disabled
  else
    let stopped ← untilStop (callClosure sig run · []) r.middlewares
    if stopped then pure ()
    else callClosure sig run r.fn (values params)

/-- The end of the dispatch when no route was found. -/
def vmNoRoute (routes : List (VmRoute F)) : Dispatch F σ Unit :=
  match routes.find? vmIs404 with
  | some r => callClosure sig run r.fn []
  | none => Exec.modify (print (ascii "404 Not Found"))

def vmDispatch (pinned : Nat → Bool) (routes : List (VmRoute F)) (method path : Bytes) :
    Dispatch F σ Unit :=
  match routes.findSome? (vmTry method path) with
  | some (r, params) => vmAnswer sig run pinned r params
  | none => do
    Exec.modify setNotFound
    vmNoRoute sig run routes

/-- The request in `look_app_dispatch`: the functions of `before_route`, and the routes. -/
def vmServe (pinned : Nat → Bool) (befores : List (Option F)) (regs : List (Registration F))
    (method path : Bytes) : Dispatch F σ Unit := do
  let stopped ← untilStop (callClosure sig run · []) (befores.filterMap id)
  if stopped then pure ()
  else vmDispatch sig run pinned (vmRoutes regs) method path

/-! ## `Interpreter::dispatch_routes` -/

def callFunction (f : F) (args : List (Option Bytes)) : Dispatch F σ Unit :=
  match interpBind (sig f) args with
  | .ok b => call run f b
  | .error (bound, text) => do
    evalDefaults run f bound
    Exec.throw (.error text)

def invoke (v : Option F) (args : List (Option Bytes)) : Dispatch F σ Unit :=
  match v with
  | some f => callFunction sig run f args
  | none => Exec.throw (.error "invoke: not a function")

/-- The check of one entry against the request, in the pass for static entries or in the
other one. -/
def interpTry (static : Bool) (method path : Bytes) (e : RouteEntry F) :
    Option (RouteEntry F × Params) :=
  if e.is404 then none
  else if (paramNames e.tokens).isEmpty ≠ static then none
  else if e.method ≠ method ∧ e.method ≠ anyMethod then none
  else (regexMatch e.tokens path).map fun groups =>
    (e, (paramNames e.tokens).zip (groups.map urlDecode))

def interpSelect (e : RouteEntry F) (params : Params) (s : Serving F σ) : Serving F σ :=
  { s with
    routing := ⟨true, putParams params []⟩
    selected := some (e.site, params) }

/-- The arguments for a handler, filled with null and cut to its parameters. -/
def fitArgs (arity : Nat) (params : Params) : List (Option Bytes) :=
  (values params ++ List.replicate (arity - params.length) none).take arity

def interpAnswer (e : RouteEntry F) (params : Params) : Dispatch F σ Unit := do
  Exec.modify (interpSelect e params)
  let stopped ← untilStop (invoke sig run · []) e.middlewares
  if stopped then pure ()
  else
    match e.callback with
    | some f => callFunction sig run f (fitArgs (sig f).arity params)
    | none => pure ()

def notFoundBody : Bytes :=
  ascii "\x7b\"ok\":false,\"error\":\"Endpoint not found\",\"hata\":\"Endpoint not found\"\x7d"

def interpNoRoute (entries : List (RouteEntry F)) : Dispatch F σ Unit :=
  match entries.find? RouteEntry.is404 with
  | some e =>
    match e.callback with
    | some f => invoke sig run (some f) []
    | none => pure ()
  | none => Exec.modify (print notFoundBody)

def interpDispatch (entries : List (RouteEntry F)) (method path : Bytes) : Dispatch F σ Unit :=
  match (entries.findSome? (interpTry true method path)).orElse
      fun _ => entries.findSome? (interpTry false method path) with
  | some (e, params) => interpAnswer sig run e params
  | none => do
    Exec.modify setNotFound
    interpNoRoute sig run entries

def interpServe (befores : List (Option F)) (entries : List (RouteEntry F))
    (method path : Bytes) : Dispatch F σ Unit := do
  let stopped ← untilStop (invoke sig run · []) befores
  if stopped then pure ()
  else interpDispatch sig run entries method path

end Dispatch

end Route

end Look
