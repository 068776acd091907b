/-
The state of the tree-walking interpreter.

Environments live at addresses, because the source shares them through
`shared_ptr` between blocks and closures.  An environment is made after the one
it stands in, so a chain of parents ends.

The control flow of the source is its exceptions: a `return`, a `break` and a
`continue` are thrown and caught like an error.
-/
import Look.Lib.Exec
import Look.Ast
import Look.Vm.World

namespace Look

/-- What a statement or an expression throws. -/
inductive Signal where
  | ret (v : Value)
  | break
  | continue
  | exit (code : Int)
  | routeMatched
  | routeStop
  /- `LookRuntimeError`, with the value of a `throw` if it has one. -/
  | runtimeError (message : String) (value : Option Value)
  /- Any other `std::exception`. -/
  | std (what : String)
  /- The native stack is exhausted. -/
  | crashed
deriving DecidableEq

/-- `Environment`. -/
structure Environment where
  values : List (String × Value)
  parent : Option Nat
  fnBoundary : Bool
deriving DecidableEq

/-- `LookFunction`; `closure` is the address of its environment. -/
structure LookFunction where
  name : String
  parameters : List String
  variadic : Bool
  body : Block
  closure : Nat
  defaults : List (Option Expr)

/-- `StructFieldDef`. -/
structure StructFieldDef where
  name : String
  default : Option Value

structure InterpState where
  world : World
  functions : List LookFunction
  envs : List Environment
  current : Nat
  globals : Nat
  structDefs : String → Option (List StructFieldDef)
  iota : Nat
  callDepth : Nat
  /- The names in `call_stack_`; the back of the stack is the head here. -/
  callStack : List String
  output : List String

/-- A computation of the interpreter. -/
abbrev Interp := Exec InterpState Signal

namespace Interp

open Exec

def fault {α : Type} : Fault → Interp α
  | .error m => throw (.std m)
  | .stackExhausted => throw .crashed

def ofExcept {α : Type} : Except Fault α → Interp α
  | .ok a => pure a
  | .error e => fault e

def arrays : Interp Arrays := gets fun s => s.world.arrays

/-- Run an operation on the world. -/
def onWorld {α : Type} (f : World → α × World) : Interp α := fun s =>
  let (a, w) := f s.world
  .ok a { s with world := w }

/-! ## Environments -/

/-- The first binding of a name. -/
def lookupValue (name : String) : List (String × Value) → Option Value
  | [] => none
  | (n, v) :: rest => if n = name then some v else lookupValue name rest

/-- `values_[name] = val`. -/
def defineValue (name : String) (v : Value) : List (String × Value) → List (String × Value)
  | [] => [(name, v)]
  | (n, x) :: rest => if n = name then (n, v) :: rest else (n, x) :: defineValue name v rest

/-- `Environment::get` from the environment at an address; `depth` bounds the
length of the chain. -/
def findValue (envs : List Environment) (name : String) : Nat → Nat → Option Value
  | 0, _ => none
  | depth + 1, p => do
    let env ← envs[p]?
    match lookupValue name env.values with
    | some v => some v
    | none => findValue envs name depth (← env.parent)

/-- The environment that `Environment::set` writes: the first one that has the
name, up to the function's own. -/
def findOwner (envs : List Environment) (name : String) : Nat → Nat → Option Nat
  | 0, _ => none
  | depth + 1, p => do
    let env ← envs[p]?
    match lookupValue name env.values with
    | some _ => some p
    | none => if env.fnBoundary then none else findOwner envs name depth (← env.parent)

/-- `current_->get(name)`. -/
def getVar (name : String) : Interp Value := do
  let s ← gets id
  match findValue s.envs name s.envs.length s.current with
  | some v => return v
  | none => throw (.std ("Undefined variable: " ++ name))

def defineAt (p : Nat) (name : String) (v : Value) : Interp Unit :=
  modify fun s => { s with envs := s.envs.modify p fun env =>
    { env with values := defineValue name v env.values } }

/-- `current_->define(name, val)`. -/
def define (name : String) (v : Value) : Interp Unit := do
  defineAt (← gets InterpState.current) name v

/-- `try { current_->set(name, val); } catch (...) { current_->define(name, val); }`. -/
def setVar (name : String) (v : Value) : Interp Unit := do
  let s ← gets id
  match findOwner s.envs name s.envs.length s.current with
  | some p => defineAt p name v
  | none => define name v

/-- A new environment inside the one at `parent`. -/
def newEnv (parent : Nat) (fnBoundary : Bool) : Interp Nat := fun s =>
  .ok s.envs.length
    { s with envs := s.envs ++ [{ values := [], parent := some parent, fnBoundary := fnBoundary }] }

def setCurrent (p : Nat) : Interp Unit := modify fun s => { s with current := p }

/-- Run `m` in the environment at an address.  The current one comes back also
when `m` throws. -/
def withEnv {α : Type} (p : Nat) (m : Interp α) : Interp α := fun s =>
  match m { s with current := p } with
  | .ok a s' => .ok a { s' with current := s.current }
  | .error e s' => .error e { s' with current := s.current }
  | .timeout => .timeout

/-- Run `m` in a new environment inside the current one. -/
def inScope {α : Type} (m : Interp α) : Interp α := do
  let p ← newEnv (← gets InterpState.current) false
  withEnv p m

def newFunction (f : LookFunction) : Interp Value := fun s =>
  .ok (.function s.functions.length) { s with functions := s.functions ++ [f] }

def write (text : String) : Interp Unit :=
  modify fun s => { s with output := s.output ++ [text] }

end Interp

end Look
