/-
The compiler as a whole, `Compiler::compile`.

The recursion of the source is cut by fuel: a nested call gets one unit less,
and a compilation that runs out of it ends in `timeout`.  A program that the
source compiles is compiled here with every large enough fuel.
-/
import Look.Compiler.Stmt

namespace Look

namespace Compile

open Exec

variable [DoubleOps] (env : SourceEnv)

/-- The recursive entry points with `fuel` nested calls left. -/
def recAt : Nat → Rec
  | 0 => { expr := fun _ _ => timeout, stmt := fun _ => timeout }
  | fuel + 1 => { expr := compileExpr env (recAt fuel), stmt := compileStmt env (recAt fuel) }

/-- The code of the program itself, which has no parameters. -/
def compileProgram (rec : Rec) (program : Program) : Compile Unit := do
  pushScope
  forEach program rec.stmt
  popScope
  emit .retNull

/-- `FunctionCompiler::compile_stmts`. -/
def compileStmts (rec : Rec) (program : Program) : Compile FunctionProto := do
  withEscapeAnalysis (compileProgram rec program)
  finishProto

/-- The state in which a compilation starts. -/
def initialState : CompilerState where
  cur := .init "<main>" [] false
  parents := []
  modules := []
  included := []
  curDir := if env.root = "" then [] else [env.root]
  curUse := []
  warnings := []
  discarded := []
  protoCount := 0

end Compile

namespace Compiler

open Compile

variable [DoubleOps]

/-- `Compiler::compile` with its final state. -/
def run (env : SourceEnv) (fuel : Nat) (program : Program) :
    Res CompilerState CompileError FunctionProto :=
  compileStmts (recAt env fuel) program (initialState env)

/-- `Compiler::compile`: the compiled program, or `none` when the compiler
rejects it or the fuel is not enough. -/
def compile (env : SourceEnv) (fuel : Nat) (program : Program) : Option CompiledProgram :=
  match run env fuel program with
  | .ok proto s => some
      { mainProto := proto
        usesNonBuiltinModuleFn := s.cur.nonBuiltinModuleFn
        nonBuiltinModuleFns := s.cur.nonBuiltinNames
        warnings := s.warnings }
  | _ => none

end Compiler

end Look
