/-
The state of the compiler and its primitives.

A `FunctionCompiler` holds one function while it is being compiled.  The source
links it to the compiler of the enclosing function through `parent_`; here the
enclosing compilers are the list `parents` of `CompilerState`, innermost first,
and a nested function is compiled with its own compiler on top of that list.

Two `catch (...)` handlers of the compiler drop an error and go on with whatever
was emitted before it.  `discarded` remembers the errors they dropped.
-/
import Look.Lib.Exec
import Look.Ast
import Look.Builtins
import Look.Compiler.RegisterAllocator

namespace Look

structure LocalVar where
  name : String
  reg : Nat
  depth : Nat
deriving DecidableEq

/-- A variable of an enclosing function that the function reads.  When `isCell`
the captured value is a one-element array that holds the variable. -/
structure CaptureInfo where
  name : String
  isCell : Bool
deriving DecidableEq

structure LoopContext where
  breakPatches : List Nat := []
  continuePatches : List Nat := []
  /- The address a `continue` jumps to; `none` while it is not known. -/
  continueTarget : Option Nat := none
  isSwitch : Bool := false
  finallyFloor : Nat

/-- A `finally` block that a `return`, `break` or `continue` has to run first.
The source compares the address of the block; `id` is the address of the
`TRY_PUSH` it belongs to, which no two pending blocks share. -/
structure PendingFinally where
  id : Nat
  block : Block

structure FunctionCompiler where
  name : String
  params : List String
  variadic : Bool
  constants : List Value
  code : List Instruction
  lines : List Nat
  origins : List Origin
  nested : List FunctionProto
  regs : RegisterAllocator
  /- The back of the source's vector is the head of the list. -/
  locals : List LocalVar
  scopeDepth : Nat
  loopDepth : Nat
  calleeCtx : Bool
  outerGlobals : List String
  captures : List CaptureInfo
  noDiscovery : Bool
  escapingNames : List String
  boxedNames : List String
  boxedSlots : List Nat
  loopStack : List LoopContext
  iotaVal : Nat
  pendingFinally : List PendingFinally
  assignResultReg : Option Nat
  curLine : Nat
  nonBuiltinModuleFn : Bool
  nonBuiltinNames : List String

/-- What the compiler reads besides the program: `Lexer` and `Parser` on a text,
the user's home directory, the application directory (empty when there is none),
the file system, and the operations `/`, `weakly_canonical` and `parent_path` on
paths. -/
structure SourceEnv where
  parse : String → Except String Program
  home : String
  root : String
  readFile : String → Option String
  join : String → String → String
  canonical : String → String
  parentPath : String → String

structure CompilerState where
  cur : FunctionCompiler
  parents : List FunctionCompiler
  modules : List String
  included : List String
  curDir : List String
  curUse : List String
  warnings : List String
  discarded : List CompileError
  protoCount : Nat

/-- A computation of the compiler. -/
abbrev Compile := Exec CompilerState CompileError

namespace FunctionCompiler

/-- The constructor, for at most 255 parameters. -/
def init (name : String) (params : List String) (variadic : Bool) : FunctionCompiler where
  name := name
  params := params
  variadic := variadic
  constants := []
  code := []
  lines := []
  origins := []
  nested := []
  regs := .init params.length (if name = "" then "<main>" else name)
  locals := (params.zipIdx.map fun (p, i) => { name := p, reg := i, depth := 0 }).reverse
  scopeDepth := 0
  loopDepth := 0
  calleeCtx := false
  outerGlobals := []
  captures := []
  noDiscovery := false
  escapingNames := []
  boxedNames := []
  boxedSlots := []
  loopStack := []
  iotaVal := 0
  pendingFinally := []
  assignResultReg := none
  curLine := 0
  nonBuiltinModuleFn := false
  nonBuiltinNames := []

/-- The finished function: what `compile` moves out of the compiler. -/
def finish (fc : FunctionCompiler) (uid : Nat) : FunctionProto where
  uid := uid
  name := fc.name
  params := fc.params
  variadic := fc.variadic
  regCount := fc.regs.max
  constants := fc.constants
  code := fc.code
  nested := fc.nested
  lines := fc.lines
  captureIsCell := fc.captures.map CaptureInfo.isCell
  origins := fc.origins

end FunctionCompiler

/-- Where a name lives: a register of this function, one of its captures, or the
table of globals. -/
inductive VarLoc where
  | register (reg : Nat)
  | capture (index : Nat)
  | global
deriving DecidableEq

namespace FunctionCompiler

/-- `is_cell_var`. -/
def isCellVar (fc : FunctionCompiler) : VarLoc → Bool
  | .register reg => fc.boxedSlots.contains reg
  | .capture i => ((fc.captures[i]?).map CaptureInfo.isCell).getD false
  | .global => false

/-- The register or the capture that already has the name. -/
def lookupVar (fc : FunctionCompiler) (name : String) : Option VarLoc :=
  match fc.locals.find? (·.name = name) with
  | some l => some (.register l.reg)
  | none => (fc.captures.findIdx? (·.name = name)).map .capture

/-- `resolve_var` of the first compiler, for reading: a local or a capture of an
enclosing function becomes a capture of every function in between.  What was
captured on the way stays captured when an inner function has no room for it. -/
def resolve (name : String) :
    List FunctionCompiler → Except CompileError VarLoc × List FunctionCompiler
  | [] => (.ok .global, [])
  | fc :: parents =>
    match fc.lookupVar name with
    | some loc => (.ok loc, fc :: parents)
    | none =>
      match resolve name parents with
      | (.error e, parents) => (.error e, fc :: parents)
      | (.ok .global, parents) => (.ok .global, fc :: parents)
      | (.ok ploc, parents) =>
        if 255 ≤ fc.captures.length then
          (.error (.compile "closure captures more than 255 variables"), fc :: parents)
        else
          let isCell := (parents.head?.map (·.isCellVar ploc)).getD false
          (.ok (.capture fc.captures.length),
            { fc with captures := fc.captures ++ [{ name := name, isCell := isCell }] } :: parents)

end FunctionCompiler

namespace Compile

open Exec

/-! ## The current function -/

def cur : Compile FunctionCompiler := gets CompilerState.cur

def modifyCur (f : FunctionCompiler → FunctionCompiler) : Compile Unit :=
  modify fun s => { s with cur := f s.cur }

def currentIp : Compile Nat := gets fun s => s.cur.code.length

/-- Run a computation on the registers of the current function. -/
def withRegs {α : Type} (f : RegisterAllocator → Except CompileError (α × RegisterAllocator)) :
    Compile α := fun s =>
  match f s.cur.regs with
  | .ok (a, regs) => .ok a { s with cur := { s.cur with regs := regs } }
  | .error e => .error e s

def allocTemp : Compile Nat := withRegs RegisterAllocator.alloc

def allocSeq (n : Nat) : Compile Nat := withRegs (RegisterAllocator.allocSeq · n)

def modifyRegs (f : RegisterAllocator → RegisterAllocator) : Compile Unit :=
  modifyCur fun fc => { fc with regs := f fc.regs }

def freeTemp (r : Nat) : Compile Unit := modifyRegs (·.release r)

def releaseSeq (base n : Nat) : Compile Unit := modifyRegs (·.releaseSeq base n)

/-- The caller's destination, or a temporary.  The source passes 255 for no
destination. -/
def ensureDest : Option Nat → Compile Nat
  | some r => pure r
  | none => allocTemp

/-! ## Narrowing -/

def u8 (v : Nat) (what : String) : Compile Nat :=
  if 255 < v then throw (.exceeds255 what) else pure v

def u16 (v : Nat) (what : String) : Compile Nat :=
  if 65535 < v then throw (.exceeds65535 what) else pure v

def hi8 (v : Nat) : Compile Nat := do return (← u16 v "16-bit operand") / 256

def lo8 (v : Nat) : Compile Nat := do return (← u16 v "16-bit operand") % 256

def hintU8 (n : Nat) : Nat := if 255 < n then 255 else n

/-! ## Emission -/

def emitAs (origin : Origin) (op : OpCode) (a b c : Nat) : Compile Nat := do
  let ip ← currentIp
  modifyCur fun fc => { fc with code := fc.code ++ [⟨op, a, b, c⟩]
                                lines := fc.lines ++ [fc.curLine]
                                origins := fc.origins ++ [origin] }
  return ip

def emit (op : OpCode) (a : Nat := 0) (b : Nat := 0) (c : Nat := 0) : Compile Unit := do
  let _ ← emitAs .plain op a b c

def emitHint (op : OpCode) (a : Nat := 0) (b : Nat := 0) (c : Nat := 0) : Compile Unit := do
  let _ ← emitAs .hint op a b c

/-- A jump whose target is patched later; until then it is 0. -/
def emitJump (op : OpCode) (condReg : Nat := 0) : Compile Nat := emitAs .plain op condReg 0 0

def setTarget (offset hi lo : Nat) : Compile Unit :=
  modifyCur fun fc => { fc with code := fc.code.modify offset fun w => { w with b := hi, c := lo } }

def patchJump (offset target : Nat) : Compile Unit := do
  if 65535 < target then throw (.compile "Jump target too far")
  let hi ← hi8 target
  let lo ← lo8 target
  setTarget offset hi lo

def patchHere (offset : Nat) : Compile Unit := do patchJump offset (← currentIp)

def patchAll (offsets : List Nat) (target : Nat) : Compile Unit :=
  forEach offsets fun p => patchJump p target

/-- A jump whose target is known. -/
def emitJumpTo (origin : Origin) (target : Nat) : Compile Unit := do
  let hi ← hi8 target
  let lo ← lo8 target
  let _ ← emitAs origin .jump 0 hi lo

section Constants

variable [DoubleOps]

def addConst (v : Value) : Compile Nat := do
  let fc ← cur
  match fc.constants.findIdx? (·.eq v) with
  | some i => u16 i "constant index"
  | none =>
    if 65535 ≤ fc.constants.length then throw .constantPoolOverflow
    modifyCur fun fc => { fc with constants := fc.constants ++ [v] }
    u16 fc.constants.length "constant index"

/-- The two bytes of the index of a name in the constant pool. -/
def addName (name : String) : Compile (Nat × Nat) := do
  let ni ← addConst (.string name)
  return (← hi8 ni, ← lo8 ni)

/-- `i8_bits`: two's complement in one byte. -/
def i8Bits (i : Int64) : Nat := if i.toInt < 0 then (256 + i.toInt).toNat else i.toInt.toNat

def emitLoadConst (dest : Nat) (v : Value) : Compile Unit :=
  match v with
  | .none => emit .loadNull dest
  | .bool b => emit (if b then .loadTrue else .loadFalse) dest
  | v => do
    if let .int i := v then
      if -128 ≤ i.toInt ∧ i.toInt ≤ 127 then
        emit .loadInt dest (i8Bits i)
        return
    let idx ← addConst v
    if idx < 256 then emit .loadConst dest idx
    else emit .loadConstW dest (← hi8 idx) (← lo8 idx)

def emitLoadGlobal (r : Nat) (name : String) : Compile Unit := do
  let (hi, lo) ← addName name
  emit .loadGlobal r hi lo

end Constants

/-! ## Scopes and names -/

def pushScope : Compile Unit := modifyCur fun fc => { fc with scopeDepth := fc.scopeDepth + 1 }

/-- The locals of the innermost scope leave the list, and their registers are
freed. -/
def dropLocals (depth : Nat) :
    List LocalVar → RegisterAllocator → List LocalVar × RegisterAllocator
  | [], ra => ([], ra)
  | l :: rest, ra =>
    if l.depth = depth then dropLocals depth rest (ra.freeLocal l.reg) else (l :: rest, ra)

def popScope : Compile Unit := modifyCur fun fc =>
  let (locals, regs) := dropLocals fc.scopeDepth fc.locals fc.regs
  { fc with locals := locals, regs := regs, scopeDepth := fc.scopeDepth - 1 }

/-- Add a name for a register that is already allocated. -/
def pushLocal (name : String) (reg : Nat) : Compile Unit := modifyCur fun fc =>
  { fc with locals := { name := name, reg := reg, depth := fc.scopeDepth } :: fc.locals }

def declareLocal (name : String) : Compile Nat := do
  let fc ← cur
  if (fc.locals.takeWhile fun l => fc.scopeDepth ≤ l.depth).any (·.name = name) then
    throw (.compile ("'" ++ name ++ "' already defined in this scope"))
  let slot ← withRegs RegisterAllocator.allocLocal
  pushLocal name slot
  if fc.boxedNames.contains name then
    modifyCur fun fc => { fc with boxedSlots := slot :: fc.boxedSlots }
  return slot

/-- `resolve_var(name)`. -/
def resolveVar (name : String) : Compile VarLoc := fun s =>
  let (result, chain) := FunctionCompiler.resolve name (s.cur :: s.parents)
  let s' := { s with cur := chain.headD s.cur, parents := chain.tail }
  match result with
  | .ok loc => .ok loc s'
  | .error e => .error e s'

/-- `resolve_var(name, for_write = true)`: a name that is not in the function is
not looked for outside. -/
def resolveForWrite (name : String) : Compile VarLoc := do
  return ((← cur).lookupVar name).getD .global

section Locals

variable [DoubleOps]

def emitReadLocal (dest slot : Nat) : Compile Unit := do
  if (← cur).boxedSlots.contains slot then
    let z ← allocTemp
    emitLoadConst z (.int 0)
    emit .arrayGet dest slot z
    freeTemp z
  else emit .move dest slot

def emitWriteLocal (slot src : Nat) : Compile Unit := do
  if (← cur).boxedSlots.contains slot then
    let z ← allocTemp
    emitLoadConst z (.int 0)
    emit .arraySet slot z src
    freeTemp z
  else emit .move slot src

def emitReadCapture (dest index : Nat) : Compile Unit := do
  if (← cur).isCellVar (.capture index) then
    let c ← allocTemp
    emit .loadCapture c index
    let z ← allocTemp
    emitLoadConst z (.int 0)
    emit .arrayGet dest c z
    freeTemp z
    freeTemp c
  else emit .loadCapture dest index

/-- The slot of a local becomes a one-element array that holds `src`. -/
def emitNewCell (slot src : Nat) : Compile Unit := do
  emit .newArray slot 1
  emit .arrayPush slot src

end Locals

/-! ## Nested compilers -/

/-- Run `m` with `fc` as the compiler of a function nested in the current one.
The enclosing compiler comes back with what `m` changed in it, also when `m`
throws. -/
def withInner {α : Type} (fc : FunctionCompiler) (m : Compile α) :
    Compile (α × FunctionCompiler) := fun s =>
  let restore := fun (s' : CompilerState) =>
    { s' with cur := s'.parents.headD s.cur, parents := s'.parents.tail }
  match m { s with cur := fc, parents := s.cur :: s.parents } with
  | .ok a s' => .ok (a, s'.cur) (restore s')
  | .error e s' => .error e (restore s')
  | .timeout => .timeout

/-- Run `m` with `fc` in the place of the current compiler, which comes back
unchanged. -/
def withDiscovery {α : Type} (fc : FunctionCompiler) (m : Compile α) :
    Compile (α × FunctionCompiler) := fun s =>
  let restore := fun (s' : CompilerState) => { s' with cur := s.cur }
  match m { s with cur := fc } with
  | .ok a s' => .ok (a, s'.cur) (restore s')
  | .error e s' => .error e (restore s')
  | .timeout => .timeout

/-- `catch (...)`: drop the error and give `none`. -/
def discardErrors {α : Type} (m : Compile (Option α)) : Compile (Option α) :=
  tryCatch m fun e => do
    modify fun s => { s with discarded := e :: s.discarded }
    return none

end Compile

end Look
