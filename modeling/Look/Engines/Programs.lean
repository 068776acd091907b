/-
Whole programs in both engines.

The results on concrete programs are stated about what is left in the globals
and in the output when the program has ended.
-/
import Look.Compiler.Compile
import Look.Interp.Eval
import Look.Vm.Run

namespace Look

open Exec

/-- The configuration after at most `n` steps. -/
def Config.runFor [DoubleOps] (m : Machine) : Nat → Config → Config
  | 0, c => c
  | n + 1, c => match c.step m with
    | some (c', _) => runFor m n c'
    | none => c

/-- A world with nothing in it. -/
def World.bare : World := { arrays := [], closures := [], channels := [], activeTasks := 0 }

/-- An environment with no files, in which `parse` reads the fragments of
strings. -/
def SourceEnv.bare (parse : String → Except String Program) : SourceEnv where
  parse := parse
  home := ""
  root := ""
  readFile := fun _ => none
  join := fun base path => base ++ "/" ++ path
  canonical := id
  parentPath := id

/-- An interpreter without native functions. -/
def InterpHost.bare (parse : String → Except String Program) : InterpHost where
  parse := parse
  native := fun _ _ _ => none
  scope := fun moduleName memberName => throw (.std (moduleName ++ "::" ++ memberName))
  use := fun _ => pure ()
  useFile := fun _ => pure ()

/-- The interpreter before the first statement. -/
def InterpState.start : InterpState where
  world := .bare
  functions := []
  envs := [{ values := [], parent := none, fnBoundary := false }]
  current := 0
  globals := 0
  structDefs := fun _ => none
  iota := 0
  callDepth := 0
  callStack := []
  output := []

/-- The machine after the program, with `fuel` for the compiler and for the run. -/
def runVm [DoubleOps] (m : Machine) (parse : String → Except String Program) (fuel : Nat) (p : Program) :
    Option Config :=
  (Compiler.compile (.bare parse) fuel p).map fun program =>
    Config.runFor m fuel (Config.execute (Vm.init (fun _ => none) false) .bare program)

/-- The interpreter after the program. -/
def runInterp [DoubleOps] (parse : String → Except String Program) (fuel : Nat) (p : Program) :
    Res InterpState Signal Unit :=
  Interp.interpret (.bare parse) fuel p .start

/-- A global when the program has ended normally in the machine. -/
def vmGlobal (name : String) (c : Option Config) : Option Value := do
  let c ← c
  match c.control with
  | .returned (.ok _) => c.vm.globals name
  | _ => none

/-- A global when the program has ended normally in the interpreter. -/
def interpGlobal (name : String) : Res InterpState Signal Unit → Option Value
  | .ok _ σ => do Interp.lookupValue name (← σ.envs[σ.globals]?).values
  | _ => none

end Look
