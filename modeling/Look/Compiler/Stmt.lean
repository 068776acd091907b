/-
Compiling functions and statements, `compile`, `compile_stmt` and the functions
they call.
-/
import Look.Compiler.Expr

namespace Look

namespace Compile

open Exec

variable [DoubleOps] (env : SourceEnv) (rec : Rec)

def compileBlock (block : Block) : Compile Unit := do
  pushScope
  forEach block rec.stmt
  popScope

/-! ## Functions -/

/-- The constructor of `FunctionCompiler`. -/
def newCompiler (name : String) (params : List String) (variadic : Bool) :
    Compile FunctionCompiler :=
  if 255 < params.length then
    throw (.compile ("function '" ++ name ++ "' has more than 255 parameters"))
  else pure (.init name params variadic)

/-- Parameter `i` takes its default when the call passed no more than `i`
arguments. -/
def compileDefault (i : Nat) (e : Expr) : Compile Unit := do
  let ac ← allocTemp
  emit .loadArgc ac
  let lim ← allocTemp
  emitLoadConst lim (.int (Int64.ofNat i))
  let cond ← allocTemp
  emit .lte cond ac lim
  freeTemp ac
  freeTemp lim
  let skip ← emitJump .jumpIfFalse cond
  freeTemp cond
  let dr ← rec.expr e none
  emit .move (← u8 i "parameter index") dr
  freeTemp dr
  patchHere skip

def compileDefaults (arity : Nat) : Nat → List (Option Expr) → Compile Unit
  | _, [] => pure ()
  | i, d :: rest => do
    if i < arity then
      match d with
      | some e => compileDefault rec i e
      | none => pure ()
      compileDefaults arity (i + 1) rest

/-- A parameter that a closure captures moves into a cell. -/
def boxParam (i : Nat) (name : String) : Compile Unit := do
  if (← cur).boxedNames.contains name then
    let slot ← u8 i "parameter index"
    modifyCur fun fc => { fc with boxedSlots := slot :: fc.boxedSlots }
    let tmp ← allocTemp
    emit .move tmp slot
    emitNewCell slot tmp
    freeTemp tmp

def boxParams : Nat → List String → Compile Unit
  | _, [] => pure ()
  | i, name :: rest => do
    boxParam i name
    boxParams (i + 1) rest

/-- The code of a function: its prologue, its body, and `return null`. -/
def compileBody (body : Block) (defaults : List (Option Expr)) : Compile Unit := do
  let fc ← cur
  compileDefaults rec fc.params.length 0 defaults
  boxParams 0 fc.params
  compileBlock rec body
  emit .retNull

/-- The compiler of the discovery pass, which only collects the locals that a
closure captures. -/
def discoveryCompiler (fc : FunctionCompiler) : FunctionCompiler :=
  { FunctionCompiler.init fc.name fc.params fc.variadic with
    captures := fc.captures, noDiscovery := true }

/-- Run `m` once to find the captured locals, and then for its code. -/
def withEscapeAnalysis (m : Compile Unit) : Compile Unit := do
  let fc ← cur
  if !fc.noDiscovery then
    let (_, disc) ← withDiscovery (discoveryCompiler fc) m
    modifyCur fun fc => { fc with boxedNames := disc.escapingNames }
  m

/-- The finished function. -/
def finishProto : Compile FunctionProto := do
  let uid ← gets CompilerState.protoCount
  modify fun s => { s with protoCount := s.protoCount + 1 }
  return (← cur).finish uid

/-- `FunctionCompiler::compile`. -/
def compileFunction (body : Block) (defaults : List (Option Expr)) : Compile FunctionProto := do
  withEscapeAnalysis (compileBody rec body defaults)
  finishProto

/-- Load one captured variable of a nested function into a register. -/
def loadCapture (cap : CaptureInfo) : Compile Nat := do
  let loc ← resolveVar cap.name
  let cr ← allocTemp
  match loc with
  | .register slot =>
    modifyCur fun fc => { fc with escapingNames := cap.name :: fc.escapingNames }
    emit .move cr slot
  | .capture i => emit .loadCapture cr i
  | .global => emitLoadGlobal cr cap.name
  return cr

/-- `MAKE_CLOSURE` and, directly behind it, one hint for each captured
register. -/
def emitMakeClosure (r fnIdx : Nat) (capRegs : List Nat) : Compile Unit := do
  let lo ← lo8 fnIdx
  let hi ← hi8 fnIdx
  let _ ← emitAs (.closure capRegs) .makeClosure r lo hi
  forEach capRegs fun cr => do
    emitHint .loadCapture 0 cr
    freeTemp cr

/-- Compile a nested function with `inner` and add it to the function's list;
gives its index and its captures. -/
def compileNested (inner : FunctionCompiler) (body : Block) (defaults : List (Option Expr)) :
    Compile (Nat × List CaptureInfo) := do
  let (proto, inner) ← withInner inner (compileFunction rec body defaults)
  let fnIdx := (← cur).nested.length
  modifyCur fun fc => { fc with nested := fc.nested ++ [proto] }
  return (fnIdx, inner.captures)

/-- The captures that `use (...)` lists, resolved in the enclosing function. -/
def explicitCapture (name : String) : Compile CaptureInfo := do
  let loc ← resolveVar name
  return { name := name, isCell := (← cur).isCellVar loc }

def compileClosure (parameters : List String) (defaults : List (Option Expr))
    (captures : List String) (variadic : Bool) (body : Block) (dest : Option Nat) :
    Compile Nat := do
  let inner ← newCompiler "<closure>" parameters variadic
  if 255 < captures.length then
    throw (.compile "closure captures more than 255 variables")
  let explicit ← mapEach captures explicitCapture
  let (fnIdx, caps) ← compileNested rec { inner with captures := explicit } body defaults
  let r ← ensureDest dest
  let capRegs ← mapEach caps loadCapture
  emitMakeClosure r fnIdx capRegs
  return r

def compileFuncDecl (name : String) (parameters : List String) (defaults : List (Option Expr))
    (variadic : Bool) (body : Block) : Compile Unit := do
  if isReservedBuiltin name then
    throw (.runtime ("'" ++ name ++ "' is a builtin — cannot be redefined"))
  let inner ← newCompiler name parameters variadic
  let (fnIdx, caps) ← compileNested rec inner body defaults
  let nameIdx ← addConst (.string name)
  let r ← allocTemp
  let capRegs ← mapEach caps loadCapture
  emitMakeClosure r fnIdx capRegs
  emit .storeGlobal r (← hi8 nameIdx) (← lo8 nameIdx)
  freeTemp r

/-! ## Output and control flow -/

/-- One `CALL_BUILTIN` of `write` with the argument in its own register, and no
hint behind it. -/
def emitOutput (r : Nat) : Compile Unit := do
  let _ ← emitAs .output .callBuiltin r 1 r
  freeTemp r

def emitLiteral (text : String) : Compile Unit := do
  let r ← allocTemp
  emitLoadConst r (.string text)
  emitOutput r

/-- The arguments of `print` and `write`, with a blank between two of them. -/
def emitOutputArgs (isFirst : Bool) : List Expr → Compile Unit
  | [] => pure ()
  | e :: rest => do
    if !isFirst then emitLiteral " "
    let r ← rec.expr e none
    emitOutput r
    emitOutputArgs false rest

/-- `emit_pending_finallys(floor)`: the pending blocks above `floor`, innermost
first.  They are not pending while they are compiled. -/
def emitPendingFinallys (floor : Nat) : Compile Unit := do
  let pending := (← cur).pendingFinally
  let suffix := pending.take (pending.length - floor)
  if !suffix.isEmpty then
    modifyCur fun fc => { fc with pendingFinally := fc.pendingFinally.drop suffix.length }
    forEach suffix fun p => compileBlock rec p.block
    modifyCur fun fc => { fc with pendingFinally := suffix ++ fc.pendingFinally }

def compileReturn (e : Option Expr) : Compile Unit :=
  match e with
  | none => do
    emitPendingFinallys rec 0
    let _ ← emitAs .leave .retNull 0 0 0
  | some e => do
    let r ← rec.expr e none
    emitPendingFinallys rec 0
    let _ ← emitAs .leave .ret r 0 0
    freeTemp r

def compileThrow (e : Expr) : Compile Unit := do
  let r ← rec.expr e none
  emit .throw r
  freeTemp r

/-- Change the loop context at a position of the source's vector. -/
def modifyLoop (idx : Nat) (f : LoopContext → LoopContext) : Compile Unit :=
  modifyCur fun fc =>
    { fc with loopStack := fc.loopStack.modify (fc.loopStack.length - 1 - idx) f }

def compileBreak : Compile Unit := do
  match (← cur).loopStack with
  | [] => throw (.compile "break outside a loop/switch")
  | ctx :: _ =>
    emitPendingFinallys rec ctx.finallyFloor
    let p ← emitAs .leave .jump 0 0 0
    modifyCur fun fc => { fc with loopStack := fc.loopStack.modifyHead fun ctx =>
      { ctx with breakPatches := ctx.breakPatches ++ [p] } }

def compileContinue : Compile Unit := do
  let loops := (← cur).loopStack
  match loops.dropWhile LoopContext.isSwitch with
  | [] => throw (.compile "continue outside a loop")
  | ctx :: outer =>
    emitPendingFinallys rec ctx.finallyFloor
    match ctx.continueTarget with
    | some target => emitJumpTo .leave target
    | none =>
      let p ← emitAs .leave .jump 0 0 0
      modifyLoop outer.length fun ctx => { ctx with continuePatches := ctx.continuePatches ++ [p] }

def compileIf (condition : Expr) (thenBranch : Block) (elseBranch : Option Block) :
    Compile Unit := do
  let cond ← rec.expr condition none
  let jumpFalse ← emitJump .jumpIfFalse cond
  freeTemp cond
  compileBlock rec thenBranch
  match elseBranch with
  | some elseBranch =>
    let jumpEnd ← emitJump .jump
    patchHere jumpFalse
    compileBlock rec elseBranch
    patchHere jumpEnd
  | none => patchHere jumpFalse

/-- Compile the body of a loop or of a `switch` with a new context, and give
the context back. -/
def inLoop (ctx : LoopContext) (isLoop : Bool) (m : Compile Unit) : Compile LoopContext := do
  modifyCur fun fc => { fc with loopStack := ctx :: fc.loopStack
                                loopDepth := if isLoop then fc.loopDepth + 1 else fc.loopDepth }
  m
  let fc ← cur
  modifyCur fun fc => { fc with loopStack := fc.loopStack.tail
                                loopDepth := if isLoop then fc.loopDepth - 1 else fc.loopDepth }
  return fc.loopStack.headD ctx

def finallyDepth : Compile Nat := gets fun s => s.cur.pendingFinally.length

def compileWhile (condition : Expr) (body : Block) : Compile Unit := do
  let loopStart ← currentIp
  let cond ← rec.expr condition none
  let exitJump ← emitJump .jumpIfFalse cond
  freeTemp cond
  let floor ← finallyDepth
  let ctx ← inLoop { continueTarget := some loopStart, finallyFloor := floor } true
    (compileBlock rec body)
  patchAll ctx.continuePatches loopStart
  emitJumpTo .plain loopStart
  let after ← currentIp
  patchJump exitJump after
  patchAll ctx.breakPatches after

def compileFor (init : Option Stmt) (condition post : Option Expr) (body : Block) :
    Compile Unit := do
  pushScope
  match init with
  | some s => rec.stmt s
  | none => pure ()
  let loopStart ← currentIp
  let exitJump ← match condition with
    | some c => do
      let cond ← rec.expr c none
      let j ← emitJump .jumpIfFalse cond
      freeTemp cond
      pure (some j)
    | none => pure none
  let floor ← finallyDepth
  let ctx ← inLoop { finallyFloor := floor } true (compileBlock rec body)
  let postIp ← currentIp
  match post with
  | some e => do
    let r ← rec.expr e none
    freeTemp r
  | none => pure ()
  patchAll ctx.continuePatches postIp
  emitJumpTo .plain loopStart
  let after ← currentIp
  match exitJump with
  | some j => patchJump j after
  | none => pure ()
  patchAll ctx.breakPatches after
  popScope

/-- The variable of a `foreach`: a cell of its own when a closure captures it,
otherwise a name for the register that `FOR_STEP` writes.  Gives the cell. -/
def bindForeachVar (name : String) (reg : Nat) : Compile (Option Nat) := do
  if name = "" then return none
  if (← cur).boxedNames.contains name then return some (← declareLocal name)
  pushLocal name reg
  return none

def compileForeach (iterable : Expr) (keyVar valueVar : String) (body : Block) :
    Compile Unit := do
  pushScope
  let rArr ← rec.expr iterable none
  let rIter ← allocSeq 4
  emit .forPrep rIter rArr
  freeTemp rArr
  let valCell ← bindForeachVar valueVar (rIter + 2)
  let keyCell ← bindForeachVar keyVar (rIter + 3)
  let loopStart ← currentIp
  let stepIp ← emitJump .forStep rIter
  match valCell with
  | some cell => emitNewCell cell (rIter + 2)
  | none => pure ()
  match keyCell with
  | some cell => emitNewCell cell (rIter + 3)
  | none => pure ()
  let floor ← finallyDepth
  let ctx ← inLoop { continueTarget := some loopStart, finallyFloor := floor } true
    (compileBlock rec body)
  patchAll ctx.continuePatches loopStart
  emitJumpTo .plain loopStart
  let after ← currentIp
  let hi ← hi8 after
  let lo ← lo8 after
  setTarget stepIp hi lo
  patchAll ctx.breakPatches after
  releaseSeq rIter 4
  popScope

/-- The catch variable takes the exception, in a cell when a closure captures
it. -/
def bindCatchVar (name : String) : Compile Unit := do
  if name ≠ "" then
    let reg ← declareLocal name
    if (← cur).boxedSlots.contains reg then
      let tmp ← allocTemp
      emit .loadExc tmp
      emitNewCell reg tmp
      freeTemp tmp
    else emit .loadExc reg

def compileFinally (finallyBlock : Option Block) : Compile Unit :=
  match finallyBlock with
  | some block => compileBlock rec block
  | none => pure ()

/-- Drop the pending block of this statement, if it is the innermost one. -/
def popPendingFinally (id : Nat) : Compile Unit := modifyCur fun fc =>
  match fc.pendingFinally with
  | p :: rest => if p.id = id then { fc with pendingFinally := rest } else fc
  | [] => fc

def compileTry (tryBlock : Block) (catchVar : String) (catchBlock finallyBlock : Option Block) :
    Compile Unit := do
  let id ← currentIp
  match finallyBlock with
  | some block => modifyCur fun fc =>
      { fc with pendingFinally := { id := id, block := block } :: fc.pendingFinally }
  | none => pure ()
  let tryPush ← emitJump .tryPush
  compileBlock rec tryBlock
  emit .tryPop
  let jumpEnd ← emitJump .jump
  patchHere tryPush
  match catchBlock with
  | some block =>
    pushScope
    bindCatchVar catchVar
    compileBlock rec block
    popScope
  | none => pure ()
  if finallyBlock.isSome then popPendingFinally id
  match catchBlock with
  | some _ =>
    patchHere jumpEnd
    compileFinally rec finallyBlock
  | none =>
    -- Without a catch the exception is thrown again after the finally block,
    -- and the normal path has a copy of its own.
    let exc ← allocTemp
    emit .loadExc exc
    compileFinally rec finallyBlock
    emit .throw exc
    freeTemp exc
    patchHere jumpEnd
    compileFinally rec finallyBlock

/-- The tests of one case; gives the jumps into its body. -/
def compileCaseTests (subj : Nat) (values : List Expr) : Compile (List Nat) :=
  mapEach values fun v => do
    let r ← rec.expr v none
    let eq ← allocTemp
    emit .eq eq subj r
    freeTemp r
    let j ← emitJump .jumpIfTrue eq
    freeTemp eq
    return j

/-- The body of one case; gives the jump to the end of the `switch`. -/
def compileCaseBody (noMatch : Nat) (values : List Expr) (jumps : List Nat) (body : Block) :
    Compile Nat := do
  let bodyIp ← currentIp
  if values.isEmpty then patchJump noMatch bodyIp
  else patchAll jumps bodyIp
  pushScope
  forEach body rec.stmt
  popScope
  emitJump .jump

def compileSwitch (subject : Expr) (cases : List (List Expr × Block)) : Compile Unit := do
  let subj ← rec.expr subject none
  let entries ← mapEach cases fun c => compileCaseTests rec subj c.1
  let noMatch ← emitJump .jump
  let floor ← finallyDepth
  modifyCur fun fc =>
    { fc with loopStack := { isSwitch := true, finallyFloor := floor } :: fc.loopStack }
  let endJumps ← mapEach (cases.zip entries) fun (c, jumps) =>
    compileCaseBody rec noMatch c.1 jumps c.2
  let breaks := ((← cur).loopStack.head?.map LoopContext.breakPatches).getD []
  modifyCur fun fc => { fc with loopStack := fc.loopStack.tail }
  let after ← currentIp
  if !cases.any (·.1.isEmpty) then patchJump noMatch after
  patchAll endJumps after
  patchAll breaks after
  freeTemp subj

/-! ## Declarations and `use` -/

def storeConst (name : String) (v : Value) : Compile Unit := do
  let r ← allocTemp
  emitLoadConst r v
  let (hi, lo) ← addName name
  emit .storeGlobal r hi lo
  freeTemp r

/-- The next value of `iota`. -/
def nextIota : Compile Value := do
  let i := (← cur).iotaVal
  modifyCur fun fc => { fc with iotaVal := fc.iotaVal + 1 }
  return .int (Int64.ofNat i)

def compileConstItem (item : String × Option Expr) : Compile Unit := do
  match item.2 with
  | none => storeConst item.1 (← nextIota)
  | some .iota => storeConst item.1 (← nextIota)
  | some (.numberLit i) => storeConst item.1 (.int i)
  | some (.floatLit d) => storeConst item.1 (.float d)
  | some (.stringLit s _) => storeConst item.1 (.string s)
  | some (.boolLit b) => storeConst item.1 (.bool b)
  | some e =>
    let r ← rec.expr e none
    let (hi, lo) ← addName item.1
    emit .storeGlobal r hi lo
    freeTemp r

def compileConstBlock (items : List (String × Option Expr)) : Compile Unit := do
  modifyCur fun fc => { fc with iotaVal := 0 }
  forEach items (compileConstItem rec)

def compileStructDeclField (arr : Nat) (field : String × Option Expr) : Compile Unit := do
  let t ← allocTemp
  emitLoadConst t (.string field.1)
  emit .arrayPush arr t
  match field.2 with
  | some e =>
    let dv ← rec.expr e (some t)
    if dv ≠ t then emit .move t dv
  | none => emit .loadNull t
  emit .arrayPush arr t
  freeTemp t

/-- The definition is kept in the hidden global `__sdef:Name`, as the list of
the fields and their defaults. -/
def compileStructDecl (name : String) (fields : List (String × Option Expr)) : Compile Unit := do
  let arr ← allocTemp
  emit .newArray arr (hintU8 (fields.length * 2))
  forEach fields (compileStructDeclField rec arr)
  let (hi, lo) ← addName ("__sdef:" ++ name)
  emit .storeGlobal arr hi lo
  freeTemp arr

def modulePath (name : String) : String :=
  env.home ++ "/.look/modules/" ++ name ++ "/" ++ name ++ ".lk"

/-- `use name`: the statements of the user's module, or a `NOP` when there is
none, when it is already loaded, or when it does not compile. -/
def compileUse (name : String) : Compile Unit := do
  if (← cur).noDiscovery then return
  if env.home = "" then
    emit .nop
    return
  let path := modulePath env name
  if (← gets CompilerState.modules).contains path then
    emit .nop
    return
  let loaded ← match (env.readFile path).map env.parse with
    | some (.ok prog) => discardErrors do
        modify fun s => { s with modules := path :: s.modules }
        forEach prog rec.stmt
        return some ()
    | _ => pure none
  if loaded.isNone then emit .nop

/-- The statements of an included file, with its directory as the current one. -/
def compileIncluded (abs path : String) (prog : Program) : Compile Unit := fun s =>
  let restore := fun (s' : CompilerState) =>
    { s' with curDir := s'.curDir.tail, curUse := s'.curUse.tail }
  match forEach prog rec.stmt
      { s with curDir := env.parentPath abs :: s.curDir, curUse := path :: s.curUse } with
  | .ok a s' => .ok a (restore s')
  | .error (.compile m) s' => .error (.compile m) (restore s')
  | .error (.runtime m) s' => .error (.compile ("use \"" ++ path ++ "\": " ++ m)) (restore s')
  | .timeout => .timeout

def compileUseFile (path : String) : Compile Unit := do
  if (← cur).noDiscovery then return
  let usePath := "use \"" ++ path ++ "\": "
  if env.root = "" then
    throw (.compile (usePath ++ "file include compiles only with a base directory"))
  let base := (← gets CompilerState.curDir).headD env.root
  let abs := env.canonical (env.join base path)
  if !(env.canonical env.root).isPrefixOf abs then
    throw (.compile (usePath ++ "the file is outside the application directory"))
  if (← gets CompilerState.included).contains abs then
    emit .nop
    return
  match env.readFile abs with
  | none => throw (.compile (usePath ++ "the file cannot be opened"))
  | some src =>
    modify fun s => { s with included := abs :: s.included }
    match env.parse src with
    | .error what => throw (.compile (usePath ++ what))
    | .ok prog => compileIncluded env rec abs path prog

/-! ## Statements -/

/-- The builtin whose result an expression statement drops, if it calls one. -/
def droppedBuiltin : Expr → String
  | .call (.scope moduleName memberName) _ => moduleName ++ "::" ++ memberName
  | .call (.var name) _ => if isReservedBuiltin name then name else ""
  | _ => ""

/-- A warning for a builtin that does nothing but return a value, collected in
the final pass only. -/
def warnUnused (e : Expr) (line : Nat) : Compile Unit :=
  modify fun s =>
    let full := droppedBuiltin e
    let inDiscovery := (s.cur :: s.parents).any FunctionCompiler.noDiscovery
    if !inDiscovery && isPureBuiltin full then
      let w := s.curUse.foldl (fun w path => "use \"" ++ path ++ "\": " ++ w)
        (unusedResultMessage full line)
      { s with warnings := s.warnings ++ [w] }
    else s

def compileExprStmt (e : Expr) (line : Nat) : Compile Unit := do
  match e with
  | .assign name op object key value => compileAssignExpr rec name op object key value
  | e =>
    warnUnused e line
    let r ← rec.expr e none
    freeTemp r

def compileStmtKind (line : Nat) : StmtKind → Compile Unit
  | .expression e => compileExprStmt rec e line
  | .print es => do
    emitOutputArgs rec true es
    emitLiteral "\n"
  | .write es => emitOutputArgs rec true es
  | .ret e => compileReturn rec e
  | .throw e => compileThrow rec e
  | .break => compileBreak rec
  | .continue => compileContinue rec
  | .if c t e => compileIf rec c t e
  | .while c body => compileWhile rec c body
  | .for init c post body => compileFor rec init c post body
  | .foreach it k v body => compileForeach rec it k v body
  | .tryCatch t x c f => compileTry rec t x c f
  | .functionDecl name ps ds variadic body => compileFuncDecl rec name ps ds variadic body
  | .switch subject cases => compileSwitch rec subject cases
  | .constBlock items => compileConstBlock rec items
  | .structDecl name fields => compileStructDecl rec name fields
  | .block b => compileBlock rec b
  | .use name _ => compileUse env rec name
  | .useFile path => compileUseFile env rec path

def compileStmt : Stmt → Compile Unit
  | .mk line kind => do
    if 0 < line then modifyCur fun fc => { fc with curLine := line }
    compileStmtKind env rec line kind

/-- `compile_expr`. -/
def compileExpr (e : Expr) (dest : Option Nat) : Compile Nat :=
  match e with
  | .numberLit i => do
    let r ← ensureDest dest
    emitLoadConst r (.int i)
    return r
  | .floatLit d => do
    let r ← ensureDest dest
    emitLoadConst r (.float d)
    return r
  | .boolLit b => do
    let r ← ensureDest dest
    emitLoadConst r (.bool b)
    return r
  | .nullLit => do
    let r ← ensureDest dest
    emit .loadNull r
    return r
  | .stringLit value raw => compileStringLit env rec value raw dest
  | .var name => compileVar name dest
  | .assign name op object key value => compileAssignValue rec name op object key value dest
  | .binary left op right => compileBinary rec left op right dest
  | .unary op right pre => compileUnary rec op right pre dest
  | .ternary c t f => compileTernary rec c t f dest
  | .call callee args => compileCall rec callee args dest
  | .function ps ds caps variadic body => compileClosure rec ps ds caps variadic body dest
  | .arrayLit elements => compileArrayLit rec elements dest
  | .assocLit pairs => compileAssocLit rec pairs dest
  | .structLit name fields => compileStructLit rec name fields dest
  | .index object key => do
    let obj ← rec.expr object none
    let idx ← rec.expr key none
    let r ← ensureDest dest
    emit .arrayGet r obj idx
    freeTemp idx
    freeTemp obj
    return r
  | .member object field => compileMember rec object field dest
  | .scope moduleName memberName => do
    let r ← ensureDest dest
    emitLoadGlobal r (moduleName ++ "::" ++ memberName)
    return r
  | .iota => throw (.compile "Unknown expression type: N4look14IotaExpressionE")

end Compile

end Look
