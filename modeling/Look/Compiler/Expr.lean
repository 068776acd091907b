/-
Compiling expressions, `compile_expr` and the functions it calls.

Every function takes the record `rec` of the two recursive entry points, so that
each is defined without recursion and can be reasoned about on its own; the knot
is tied in `Look.Compiler.Compile`.  A destination `none` is the source's 255:
the expression picks its register and the caller frees it.
-/
import Look.Compiler.FunctionCompiler

namespace Look

/-- The recursive entry points of the compiler. -/
structure Rec where
  expr : Expr → Option Nat → Compile Nat
  stmt : Stmt → Compile Unit

namespace Compile

open Exec

variable [DoubleOps] (env : SourceEnv) (rec : Rec)

/-! ## Operators -/

/-- `OPS` of `compile_binary`.  The operators that do not evaluate both sides
are not in it. -/
def binaryOpCode : BinaryOp → Option OpCode
  | .add => some .add
  | .sub => some .sub
  | .mul => some .mul
  | .div => some .div
  | .mod => some .mod
  | .pow => some .pow
  | .concat => some .concat
  | .eq => some .eq
  | .neq => some .neq
  | .lt => some .lt
  | .gt => some .gt
  | .lte => some .lte
  | .gte => some .gte
  | .cmp3 => some .cmp3
  | .bitAnd => some .band
  | .bitOr => some .bor
  | .bitXor => some .bxor
  | .shl => some .shl
  | .shr => some .shr
  | .and => none
  | .or => none
  | .coalesce => none

/-- `COMPOUND` of `compile_assign_expr`; `=` combines nothing. -/
def compoundOpCode : AssignOp → Option OpCode
  | .set => none
  | .add => some .add
  | .sub => some .sub
  | .mul => some .mul
  | .div => some .div
  | .mod => some .mod
  | .concat => some .concat
  | .bitAnd => some .band
  | .bitOr => some .bor
  | .bitXor => some .bxor

/-- Compile into `r`, with a `MOVE` when the expression ended elsewhere. -/
def compileInto (e : Expr) (r : Nat) : Compile Unit := do
  let r' ← rec.expr e (some r)
  if r' ≠ r then
    emit .move r r'
    freeTemp r'

def compileLogical (left : Expr) (op : BinaryOp) (right : Expr) (dest : Option Nat) :
    Compile Nat := do
  let r ← ensureDest dest
  compileInto rec left r
  let shortCircuit ← emitJump (if op = .and then .jumpIfFalse else .jumpIfTrue) r
  compileInto rec right r
  patchHere shortCircuit
  return r

def compileCoalesce (left right : Expr) (dest : Option Nat) : Compile Nat := do
  let lhs ← rec.expr left none
  let r ← ensureDest dest
  let jnull ← emitJump .jumpIfNull lhs
  emit .move r lhs
  freeTemp lhs
  let jend ← emitJump .jump
  patchHere jnull
  compileInto rec right r
  patchHere jend
  return r

def compileBinary (left : Expr) (op : BinaryOp) (right : Expr) (dest : Option Nat) :
    Compile Nat :=
  if op = .and ∨ op = .or then compileLogical rec left op right dest
  else if op = .coalesce then compileCoalesce rec left right dest
  else do
    let l ← rec.expr left none
    let r2 ← rec.expr right none
    let r ← ensureDest dest
    match binaryOpCode op with
    | none => throw (.compile "Unknown binary op")
    | some code => emit code r l r2
    freeTemp r2
    freeTemp l
    return r

def capturedReassigned (name : String) : CompileError :=
  .compile ("Captured variable cannot be reassigned: $" ++ name)

/-- `++` and `--`: the old value stays in the result unless the operator is
prefixed. -/
def compileIncrement (op : OpCode) (name : String) (pre : Bool) (dest : Option Nat) :
    Compile Nat := do
  let one ← allocTemp
  emitLoadConst one (.int 1)
  let loc ← resolveVar name
  if let .capture _ := loc then throw (capturedReassigned name)
  let r ← ensureDest dest
  match loc with
  | .register slot =>
    emitReadLocal r slot
    let nv ← allocTemp
    emit op nv r one
    emitWriteLocal slot nv
    if pre then emit .move r nv
    freeTemp nv
  | _ =>
    let (hi, lo) ← addName name
    emit .loadGlobal r hi lo
    let nv ← allocTemp
    emit op nv r one
    emit .storeGlobal nv hi lo
    if pre then emit .move r nv
    freeTemp nv
  freeTemp one
  return r

def unaryOpCode : UnaryOp → OpCode
  | .neg => .unm
  | .not => .not
  | .bitNot => .bnot
  | .incr => .add
  | .decr => .sub

def compileUnary (op : UnaryOp) (right : Expr) (pre : Bool) (dest : Option Nat) :
    Compile Nat :=
  if op = .incr ∨ op = .decr then
    match right with
    | .var name => compileIncrement (unaryOpCode op) name pre dest
    | _ => throw (.compile "++/-- requires a variable")
  else do
    let operand ← rec.expr right none
    let r ← ensureDest dest
    emit (unaryOpCode op) r operand
    freeTemp operand
    return r

def compileTernary (condition thenExpr elseExpr : Expr) (dest : Option Nat) : Compile Nat := do
  let cond ← rec.expr condition none
  let jf ← emitJump .jumpIfFalse cond
  freeTemp cond
  let r ← ensureDest dest
  compileInto rec thenExpr r
  let jend ← emitJump .jump
  patchHere jf
  compileInto rec elseExpr r
  patchHere jend
  return r

/-! ## Variables and assignment -/

def startsWithDollar (name : String) : Bool := name.toList.head? = some '$'

def compileVar (name : String) (dest : Option Nat) : Compile Nat := do
  let loc ← resolveVar name
  match loc with
  | .register slot =>
    if dest = none ∧ !(← cur).boxedSlots.contains slot then return slot
    let r ← ensureDest dest
    emitReadLocal r slot
    return r
  | .capture i =>
    let r ← ensureDest dest
    emitReadCapture r i
    return r
  | .global =>
    let r ← ensureDest dest
    let (hi, lo) ← addName name
    emit .loadGlobal r hi lo
    if !(← cur).calleeCtx ∧ name ≠ "" ∧ !startsWithDollar name ∧ !hasScope name.toList then
      emit .checkDefined r hi lo
    return r

/-- The new value of a variable whose old one is read by `read`: `val` itself
for `=`, and the combination in a fresh register for the compound operators. -/
def combine (op : AssignOp) (val : Nat) (read : Nat → Compile Unit) : Compile Nat :=
  match compoundOpCode op with
  | none => pure val
  | some code => do
    let old ← allocTemp
    read old
    let tmp ← allocTemp
    emit code tmp old val
    freeTemp old
    freeTemp val
    return tmp

def compileAssignElement (name : String) (op : AssignOp) (object : Option Expr) (key value : Expr)
    (loc : VarLoc) (want : Option Nat) : Compile Unit := do
  let arr ← match object with
    | some o => rec.expr o none
    | none => do
      let arr ← allocTemp
      match loc with
      | .register slot => emitReadLocal arr slot
      | .capture i => emitReadCapture arr i
      | .global => emitLoadGlobal arr name
      pure arr
  let idx ← rec.expr key none
  let val ← rec.expr value none
  let val ← combine op val fun old => emit .arrayGet old arr idx
  emit .arraySet arr idx val
  if let some r := want then emit .arrayGet (← u8 r "register index") arr idx
  freeTemp val
  freeTemp idx
  freeTemp arr

def compileAssignLocal (op : AssignOp) (slot val : Nat) : Compile Unit := do
  if op = .concat then
    if (← cur).boxedSlots.contains slot then
      let old ← allocTemp
      emitReadLocal old slot
      let res ← allocTemp
      emit .concat res old val
      emitWriteLocal slot res
      freeTemp res
      freeTemp old
      freeTemp val
    else
      emit .concat slot slot val
      freeTemp val
  else
    let tmp ← combine op val fun old => emitReadLocal old slot
    emitWriteLocal slot tmp
    freeTemp tmp

/-- A name that is neither a local nor a capture: inside a function it becomes a
new local, and so does one that a top-level loop body defines and a closure
captures; elsewhere it is a global. -/
def compileAssignNew (name : String) (op : AssignOp) (val : Nat) : Compile Unit := do
  let fc ← cur
  let nested ← gets fun s => !s.parents.isEmpty
  if nested ∨ (0 < fc.loopDepth ∧ !fc.outerGlobals.contains name ∧
      (fc.noDiscovery ∨ fc.boxedNames.contains name)) then
    let result ← combine op val fun old => emitLoadGlobal old name
    let slot ← declareLocal name
    if (← cur).boxedSlots.contains slot then emitNewCell slot result
    else emit .move slot result
    freeTemp result
  else
    if fc.loopDepth = 0 then
      modifyCur fun fc => { fc with outerGlobals := name :: fc.outerGlobals }
    let (hi, lo) ← addName name
    let val ← combine op val fun old => emit .loadGlobal old hi lo
    emit .storeGlobal val hi lo
    freeTemp val

def compileAssignExpr (name : String) (op : AssignOp) (object key : Option Expr) (value : Expr) :
    Compile Unit := do
  let want := (← cur).assignResultReg
  modifyCur fun fc => { fc with assignResultReg := none }
  match key with
  | some key =>
    let loc ← resolveVar name
    compileAssignElement rec name op object key value loc want
  | none =>
    let loc ← resolveForWrite name
    let val ← rec.expr value none
    match loc with
    | .register slot => compileAssignLocal op slot val
    | .capture _ => throw (capturedReassigned name)
    | .global => compileAssignNew name op val

/-- An assignment whose value is used. -/
def compileAssignValue (name : String) (op : AssignOp) (object key : Option Expr) (value : Expr)
    (dest : Option Nat) : Compile Nat := do
  if key.isSome then
    let r ← ensureDest dest
    modifyCur fun fc => { fc with assignResultReg := some r }
    compileAssignExpr rec name op object key value
    return r
  else
    compileAssignExpr rec name op object key value
    let loc ← resolveVar name
    let r ← ensureDest dest
    match loc with
    | .register slot => emitReadLocal r slot
    | _ => emitLoadGlobal r name
    return r

/-! ## Calls -/

/-- `mark_non_builtin_module_fn`, on the outermost compiler. -/
def markNonBuiltinModuleFn (name : String) : Compile Unit :=
  let mark := fun (fc : FunctionCompiler) =>
    { fc with nonBuiltinModuleFn := true
              nonBuiltinNames := if fc.nonBuiltinNames.contains name then fc.nonBuiltinNames
                                 else fc.nonBuiltinNames ++ [name] }
  modify fun s =>
    if s.parents = [] then { s with cur := mark s.cur }
    else { s with parents := s.parents.modify (s.parents.length - 1) mark }

/-- The arguments of a call, in consecutive registers from `base` on. -/
def compileArgs (base : Nat) : List Expr → Compile Unit
  | [] => pure ()
  | e :: rest => do
    let reg ← u8 base "register index"
    let ev ← rec.expr e (some reg)
    if ev ≠ reg then emit .move reg ev
    compileArgs (base + 1) rest

/-- The argument window of a call: its base and its length. -/
def compileWindow (arguments : List Expr) : Compile (Nat × Nat) := do
  if 255 < arguments.length then throw (.compile "a call has more than 255 arguments")
  let argc ← u8 arguments.length "argument count"
  let base ← if 0 < argc then allocSeq argc else pure 0
  compileArgs rec base arguments
  return (base, argc)

/-- `CALL_BUILTIN` and its hint. -/
def emitBuiltin (r bidx base argc : Nat) : Compile Unit := do
  let lo ← lo8 bidx
  let hi ← hi8 bidx
  let _ ← emitAs (.builtin bidx argc) .callBuiltin r lo base
  emitHint .nop argc hi

def compileBuiltinCall (bidx : Nat) (name : String) (arguments : List Expr) (dest : Option Nat) :
    Compile Nat := do
  let (base, argc) ← compileWindow rec arguments
  let r ← ensureDest dest
  if 65535 < bidx then
    throw (.compile ("builtin index exceeded 16-bit ceiling: '" ++ name ++ "' index=" ++
      toString bidx))
  emitBuiltin r bidx base argc
  releaseSeq base argc
  return r

/-- The name of a callee in the hint of its call, as its index plus one: it is
carried for the error message, and 0 is no name. -/
def calleeConst (name : Option String) : Compile Nat :=
  match name with
  | some name => do u16 ((← addConst (.string name)) + 1) "constant index"
  | none => pure 0

/-- `CALL` and its hint. -/
def emitCall (r fn base argc : Nat) (name : Option String) : Compile Unit := do
  let _ ← emitAs (.call argc name) .call r fn base
  let cname ← calleeConst name
  let hi ← hi8 cname
  let lo ← lo8 cname
  emitHint .nop argc hi lo

/-- The name of a callee that is one. -/
def calleeName : Expr → Option String
  | .var name => some name
  | _ => none

def compileGeneralCall (callee : Expr) (arguments : List Expr) (dest : Option Nat) :
    Compile Nat := do
  modifyCur fun fc => { fc with calleeCtx := (calleeName callee).isSome }
  let fn ← rec.expr callee none
  modifyCur fun fc => { fc with calleeCtx := false }
  let (base, argc) ← compileWindow rec arguments
  let r ← ensureDest dest
  emitCall r fn base argc (calleeName callee)
  releaseSeq base argc
  freeTemp fn
  return r

def takesArguments (name : String) (n : String) : CompileError :=
  .compile (name ++ "() takes " ++ n)

/-- The five names that have an instruction of their own. -/
def compileSpecialCall (name : String) (arguments : List Expr) (dest : Option Nat) :
    Option (Compile Nat) :=
  let resultNull := do
    let r ← ensureDest dest
    emit .loadNull r
    return r
  match name with
  | "parallel" => some <| match arguments with
    | [e] => do
      let closure ← rec.expr e none
      emit .parallelCall closure
      freeTemp closure
      resultNull
    | _ => throw (takesArguments name "one argument")
  | "send" => some <| match arguments with
    | [c, v] => do
      let ch ← rec.expr c none
      let val ← rec.expr v none
      emit .chanSend ch val
      freeTemp val
      freeTemp ch
      resultNull
    | _ => throw (takesArguments name "2 arguments")
  | "receive" => some <| match arguments with
    | [c] => do
      let ch ← rec.expr c none
      let r ← ensureDest dest
      emit .chanRecv r ch
      freeTemp ch
      return r
    | _ => throw (takesArguments name "1 argument")
  | "close" => some <| match arguments with
    | [c] => do
      let ch ← rec.expr c none
      emit .chanClose ch
      freeTemp ch
      resultNull
    | _ => throw (takesArguments name "1 argument")
  | "chan_size" => some <| match arguments with
    | [c] => do
      let ch ← rec.expr c none
      let r ← ensureDest dest
      emit .chanSize r ch
      freeTemp ch
      return r
    | _ => throw (takesArguments name "1 argument")
  | _ => none

def compileCall (callee : Expr) (arguments : List Expr) (dest : Option Nat) : Compile Nat :=
  match callee with
  | .scope moduleName memberName =>
    let full := moduleName ++ "::" ++ memberName
    match builtinIndex full with
    | some bidx => compileBuiltinCall rec bidx full arguments dest
    | none => do
      markNonBuiltinModuleFn full
      compileGeneralCall rec callee arguments dest
  | .var name =>
    match compileSpecialCall rec name arguments dest with
    | some m => m
    | none =>
      match builtinIndex (builtinAlias name) with
      | some bidx => compileBuiltinCall rec bidx (builtinAlias name) arguments dest
      | none => compileGeneralCall rec callee arguments dest
  | _ => compileGeneralCall rec callee arguments dest

/-! ## Literals -/

def compileArrayLit (elements : List Expr) (dest : Option Nat) : Compile Nat := do
  let r ← ensureDest dest
  emit .newArray r (hintU8 elements.length)
  forEach elements fun el => do
    let er ← rec.expr el none
    emit .arrayPush r er
    freeTemp er
  return r

/-- Every key is a string literal and no two are the same. -/
def distinctStringKeys : List String → List (Expr × Expr) → Bool
  | _, [] => true
  | seen, (.stringLit k _, _) :: rest => !seen.contains k && distinctStringKeys (k :: seen) rest
  | _, _ => false

def compileAssocLit (pairs : List (Expr × Expr)) (dest : Option Nat) : Compile Nat := do
  let r ← ensureDest dest
  let need := 1 + 2 * pairs.length
  emit .newAssoc r (if 255 < need then 0 else need)
  let setOp := if distinctStringKeys [] pairs then .assocAppend else .arraySet
  forEach pairs fun (k, v) => do
    let kr ← rec.expr k none
    let vr ← rec.expr v none
    emit setOp r kr vr
    freeTemp vr
    freeTemp kr
  return r

/-- A field of the literal: `SET_FIELD` when the name fits in a byte. -/
def compileStructField (r : Nat) (field : String × Expr) : Compile Unit := do
  let fi ← addConst (.string field.1)
  let vr ← rec.expr field.2 none
  if fi ≤ 255 then emit .setField r fi vr
  else
    let k ← allocTemp
    emitLoadConst k (.string field.1)
    emit .arraySet r k vr
    freeTemp k
  freeTemp vr

/-- The hint word of a field name. -/
def emitFieldName (name : String) : Compile Unit := do
  let (hi, lo) ← addName name
  emitHint .loadConstW 0 hi lo

/-- `NEW_STRUCT`, its hint, and the names of the fields that the literal sets. -/
def emitNewStruct (r : Nat) (structName : String) (names : List String) : Compile Unit := do
  let (hi, lo) ← addName structName
  let _ ← emitAs (.structLit names) .newStruct r hi lo
  if 255 < names.length then throw (.structTooManyFields structName)
  emitHint .nop names.length
  forEach names emitFieldName

def compileStructLit (structName : String) (fields : List (String × Expr)) (dest : Option Nat) :
    Compile Nat := do
  let r ← ensureDest dest
  emitNewStruct r structName (fields.map Prod.fst)
  forEach fields (compileStructField rec r)
  return r

def compileMember (object : Expr) (field : String) (dest : Option Nat) : Compile Nat := do
  let obj ← rec.expr object none
  let r ← ensureDest dest
  let fi ← addConst (.string field)
  if fi ≤ 255 then emit .getField r obj fi
  else
    let k ← allocTemp
    emitLoadConst k (.string field)
    emit .arrayGet r obj k
    freeTemp k
  freeTemp obj
  return r

/-! ## Interpolated strings -/

/-- A part of an interpolated string: literal text, or a brace group with the
text between the braces and the text with them. -/
inductive InterpPiece where
  | text (s : String)
  | group (source literal : String)
deriving DecidableEq

/-- The text up to the brace that closes `depth` open ones, and what follows. -/
def matchBrace : Nat → List Char → Option (List Char × List Char)
  | _, [] => none
  | depth, '{' :: cs => (matchBrace (depth + 1) cs).map fun (a, b) => ('{' :: a, b)
  | depth, '}' :: cs =>
    if depth = 1 then some ([], cs)
    else (matchBrace (depth - 1) cs).map fun (a, b) => ('}' :: a, b)
  | depth, c :: cs => (matchBrace depth cs).map fun (a, b) => (c :: a, b)

/-- The text before the next `{$`, and the rest. -/
def literalRun : List Char → List Char × List Char
  | '{' :: '$' :: cs => ([], '{' :: '$' :: cs)
  | c :: cs => let (a, b) := literalRun cs; (c :: a, b)
  | [] => ([], [])

/-- The pieces of a text.  Every turn consumes a character, so as many turns as
there are characters are enough. -/
def splitInterp : Nat → List Char → List InterpPiece
  | 0, _ => []
  | _, [] => []
  | turns + 1, '{' :: '$' :: cs =>
    match matchBrace 1 ('$' :: cs) with
    | none => .text "\x7b" :: splitInterp turns ('$' :: cs)
    | some (inner, rest) =>
      .group (String.ofList inner) (String.ofList ('{' :: inner ++ ['}'])) :: splitInterp turns rest
  | turns + 1, cs =>
    let (text, rest) := literalRun cs
    .text (String.ofList text) :: splitInterp turns rest

def hasInterp : List Char → Bool
  | '{' :: '$' :: _ => true
  | _ :: rest => hasInterp rest
  | [] => false

def loadText (text : String) : Compile Nat := do
  let pr ← allocTemp
  emitLoadConst pr (.string text)
  return pr

/-- The expression of a brace group, if its text is one. -/
def fragmentExpr (source : String) : Option Expr :=
  match env.parse (source ++ ";") with
  | .ok (.mk _ (.expression e) :: _) => some e
  | _ => none

/-- A brace group: its value as text, or its own text when evaluating it
throws.  When compiling it throws, what was emitted so far stays. -/
def compileFragment (source literal : String) : Compile Nat := do
  let pr ← discardErrors (match fragmentExpr env source with
    | none => pure none
    | some e => do
      let pr ← allocTemp
      let tryPush ← emitJump .tryPush
      let src ← rec.expr e none
      emit .move pr src
      emit .toStr pr pr
      emit .tryPop
      let jumpEnd ← emitJump .jump
      patchHere tryPush
      emitLoadConst pr (.string literal)
      patchHere jumpEnd
      return some pr)
  match pr with
  | some pr => return pr
  | none => loadText literal

def compilePiece : InterpPiece → Compile Nat
  | .text s => loadText s
  | .group source literal => compileFragment env rec source literal

/-- Append the remaining parts to `r`. -/
def concatParts (r : Nat) (parts : List Nat) : Compile Unit :=
  forEach parts fun p => do
    emit .concat r r p
    freeTemp p

def compileStringInterp (raw : String) (dest : Option Nat) : Compile Nat := do
  let parts ← mapEach (splitInterp raw.length raw.toList) (compilePiece env rec)
  match parts with
  | [] =>
    let r ← ensureDest dest
    emit .loadNull r
    return r
  | [p] =>
    match dest with
    | some r =>
      if p ≠ r then
        emit .move r p
        freeTemp p
      return r
    | none => return p
  | p :: q :: rest =>
    let r ← ensureDest dest
    emit .concat r p q
    freeTemp p
    freeTemp q
    concatParts r rest
    return r

def compileStringLit (value : String) (raw : Bool) (dest : Option Nat) : Compile Nat := do
  let r ← ensureDest dest
  if !raw ∧ hasInterp value.toList then compileStringInterp env rec value (some r)
  else
    emitLoadConst r (.string value)
    return r

end Compile

end Look
