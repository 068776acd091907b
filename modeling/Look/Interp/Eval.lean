/-
The tree-walking interpreter, `evaluate_expression`, `execute_statement` and
`call_function`.

As in the compiler, every function takes the record `rec` of the recursive entry
points, and the knot is tied at the end with fuel.  Native functions, modules
and `use` are the parameter `InterpHost`.
-/
import Look.Builtins
import Look.Interp.Index
import Look.Interp.State

namespace Look

/-- The recursive entry points of the interpreter. -/
structure InterpRec where
  eval : Expr → Interp Value
  exec : Stmt → Interp Unit
  call : LookFunction → List Value → Interp Value

/-- What the interpreter is given: `Lexer` and `Parser` on a text, the part of a
call that comes before the user-defined functions (`some` when the callee names
a native function or a function of a module), `module::member` as a value, and
the two forms of `use`. -/
structure InterpHost where
  parse : String → Except String Program
  native : (Expr → Interp Value) → Expr → List Expr → Option (Interp Value)
  scope : String → String → Interp Value
  use : String → Interp Unit
  useFile : String → Interp Unit

namespace Interp

open Exec

variable [DoubleOps] (host : InterpHost) (rec : InterpRec)

/-! ## Strings -/

/-- A brace group starts an expression when a `$`, a letter or an underscore
follows the brace. -/
def startsGroup (c : Char) : Bool := c = '$' || c.isAlpha || c = '_'

/-- The text up to the brace that closes `depth` open ones, and what follows. -/
def closingBrace : Nat → List Char → Option (List Char × List Char)
  | _, [] => none
  | depth, '{' :: cs => (closingBrace (depth + 1) cs).map fun (a, b) => ('{' :: a, b)
  | depth, '}' :: cs =>
    if depth = 1 then some ([], cs)
    else (closingBrace (depth - 1) cs).map fun (a, b) => ('}' :: a, b)
  | depth, c :: cs => (closingBrace depth cs).map fun (a, b) => (c :: a, b)

def textOf (v : Value) : Interp String := do ofExcept (v.toStr (← arrays))

/-- The text of a brace group: the value of its expression, its own text when
something throws, nothing when it is not an expression. -/
def groupText (inner : List Char) : Interp String :=
  tryCatch
    (match host.parse (String.ofList inner ++ ";") with
    | .error what => throw (.std what)
    | .ok (.mk _ (.expression e) :: _) => do textOf (← rec.eval e)
    | .ok _ => pure "")
    fun e => if e = .crashed then throw e
      else pure (String.ofList ('{' :: inner ++ ['}']))

/-- `interpolate_string`.  Every turn consumes a character. -/
def interpolate : Nat → List Char → Interp String
  | 0, _ => pure ""
  | _, [] => pure ""
  | turns + 1, c :: cs => do
    let group := match c, cs with
      | '{', next :: _ => if startsGroup next then closingBrace 1 cs else none
      | _, _ => none
    match group with
    | some (inner, rest) =>
      let text ← groupText host rec inner
      return text ++ (← interpolate turns rest)
    | none => return String.ofList [c] ++ (← interpolate turns cs)

def evalStringLit (value : String) (raw : Bool) : Interp Value := do
  if raw then return .string value
  return .string (← interpolate host rec value.length value.toList)

/-! ## Operators -/

/-- The binary operators that evaluate both sides. -/
def binaryValue (arrays : Arrays) : BinaryOp → Value → Value → Except Fault Value
  | .add, x, y => x.add y
  | .sub, x, y => x.sub y
  | .mul, x, y => x.mul y
  | .div, x, y => x.div y
  | .mod, x, y => x.mod y
  | .pow, x, y => .ok (x.pow y)
  | .concat, x, y => x.concat arrays y
  | .eq, x, y => .ok (.bool (x.eq y))
  | .neq, x, y => .ok (.bool (!x.eq y))
  | .lt, x, y => (x.lt y).map .bool
  | .lte, x, y => (x.le y).map .bool
  | .gt, x, y => (x.gt y).map .bool
  | .gte, x, y => (x.ge y).map .bool
  | .cmp3, x, y => x.spaceship y
  | .bitAnd, x, y => .ok (x.bitwiseAnd y)
  | .bitOr, x, y => .ok (x.bitwiseOr y)
  | .bitXor, x, y => .ok (x.bitwiseXor y)
  | .shl, x, y => .ok (x.shiftLeft y)
  | .shr, x, y => .ok (x.shiftRight y)
  | .and, _, _ => .error (.error "Unknown binary op: &&")
  | .or, _, _ => .error (.error "Unknown binary op: ||")
  | .coalesce, _, _ => .error (.error "Unknown binary op: ??")

def truthy (v : Value) : Interp Bool := do return v.isTruthy (← arrays)

def evalBinary (left : Expr) (op : BinaryOp) (right : Expr) : Interp Value := do
  let l ← rec.eval left
  match op with
  | .and => if ← truthy l then return .bool (← truthy (← rec.eval right)) else return .bool false
  | .or => if ← truthy l then return .bool true else return .bool (← truthy (← rec.eval right))
  | .coalesce => if l ≠ .none then return l else rec.eval right
  | op =>
    let r ← rec.eval right
    ofExcept (binaryValue (← arrays) op l r)

/-- `++` and `--`. -/
def evalIncrement (op : Value → Value → Except Fault Value) (name : String) (pre : Bool) :
    Interp Value := do
  let cur ← getVar name
  let next ← ofExcept (op cur (.int 1))
  setVar name next
  return if pre then next else cur

def evalUnary (op : UnaryOp) (right : Expr) (pre : Bool) : Interp Value :=
  match op, right with
  | .incr, .var name => evalIncrement Value.add name pre
  | .decr, .var name => evalIncrement Value.sub name pre
  | .incr, _ => throw (.std "++/-- requires a variable")
  | .decr, _ => throw (.std "++/-- requires a variable")
  | .neg, e => do return (← rec.eval e).neg
  | .not, e => do return .bool (!(← truthy (← rec.eval e)))
  | .bitNot, e => do return (← rec.eval e).bitwiseNot

/-! ## Assignment -/

def evalAssign (name : String) (op : AssignOp) (object key : Option Expr) (value : Expr) :
    Interp Value := do
  let val ← rec.eval value
  match key with
  | some key =>
    let obj ← match object with
      | some o => rec.eval o
      | none => getVar name
    let target := if object.isSome then "assignment target" else name
    match obj with
    | .array _ =>
      let idx ← rec.eval key
      ofExcept (← onWorld fun w => let (w, r) := assignIndex w target op obj idx val; (r, w))
    | obj => ofExcept (← onWorld fun w => let (w, r) := assignIndex w target op obj .none val; (r, w))
  | none =>
    let val ← if op = .set then pure val
      else do ofExcept (applyOp (← arrays) op (← getVar name) val)
    setVar name val
    return val

/-! ## Literals and functions -/

def evalAssocLit (pairs : List (Expr × Expr)) : Interp Value := do
  let kvs ← mapEach pairs fun (k, v) => do
    let kv ← rec.eval k
    let vv ← rec.eval v
    return [kv, vv]
  onWorld fun w => w.newArray (assocTag :: kvs.flatten)

/-- The fields of a struct literal, in the order of the declaration. -/
def structLitFields (fields : List (String × Expr)) : List StructFieldDef → Interp (List Value)
  | [] => pure []
  | d :: rest => do
    let v ← match fields.find? (·.1 = d.name) with
      | some (_, e) => rec.eval e
      | none => match d.default with
        | some (.array p) => onWorld (deepClone (.array p))
        | some v => pure v
        | none => pure .none
    return .string d.name :: v :: (← structLitFields fields rest)

def runtimeError (m : String) : Signal := .runtimeError m none

def evalStructLit (name : String) (fields : List (String × Expr)) : Interp Value := do
  match ← gets fun s => s.structDefs name with
  | none => throw (runtimeError ("Unknown struct '" ++ name ++ "'"))
  | some defs =>
    match fields.find? fun f => !defs.any (·.name = f.1) with
    | some f =>
      throw (runtimeError ("Unknown field '" ++ f.1 ++ "' in struct '" ++ name ++ "'"))
    | none =>
      let vs ← structLitFields rec fields defs
      onWorld fun w => w.newArray (assocTag :: structTag :: .string name :: vs)

/-- The environment of `use (...)`: the listed variables, null when undefined. -/
def captureVar (p : Nat) (name : String) : Interp Unit := do
  let s ← gets id
  defineAt p name ((findValue s.envs name s.envs.length s.current).getD .none)

def evalFunction (parameters : List String) (defaults : List (Option Expr))
    (captures : List String) (variadic : Bool) (body : Block) : Interp Value := do
  let closure ← if captures.isEmpty then gets InterpState.current
    else do
      let p ← newEnv (← gets InterpState.globals) false
      forEach captures (captureVar p)
      pure p
  newFunction { name := "__anonymous__", parameters := parameters, variadic := variadic,
                body := body, closure := closure, defaults := defaults }

/-! ## Calls -/

def calleeText : Expr → String
  | .var name => name
  | _ => ""

def evalCall (callee : Expr) (arguments : List Expr) : Interp Value :=
  match host.native rec.eval callee arguments with
  | some m => m
  | none => do
    let fn ← rec.eval callee
    match fn with
    | .function p =>
      let args ← mapEach arguments rec.eval
      match (← gets InterpState.functions)[p]? with
      | some f => rec.call f args
      | none => throw .crashed
    | .none => throw (.std ("Undefined variable: " ++ calleeText callee))
    | _ => throw (.std ("'" ++ calleeText callee ++ "' is not callable (function expected)"))

def maxCallDepth : Nat := 256

/-- Bind the parameters from position `i` on; the ones without an argument take
their defaults, which see the parameters before them.  `expects` is the text of
the error for one that has neither. -/
def bindParams (fnEnv saved : Nat) (args : List Value) (defaults : List (Option Expr))
    (expects : String) : Nat → List String → Interp Unit
  | _, [] => pure ()
  | i, name :: rest => do
    match args[i]? with
    | some v => defineAt fnEnv name v
    | none =>
      match (defaults[i]?).join with
      | some e => do
        let v ← rec.eval e
        defineAt fnEnv name v
      | none =>
        setCurrent saved
        throw (runtimeError (expects ++ " args, got " ++ toString args.length))
    bindParams fnEnv saved args defaults expects (i + 1) rest

/-- The defaults count only when there is one entry for each parameter. -/
def usableDefaults (f : LookFunction) : List (Option Expr) :=
  if f.defaults.length = f.parameters.length then f.defaults else []

/-- The parameters of a call, in the environment at `fnEnv`. -/
def bindCall (f : LookFunction) (fnEnv : Nat) (args : List Value) : Interp Unit := do
  let saved ← gets InterpState.current
  let n := f.parameters.length
  let expects := "Function '" ++ f.name ++ "' expects "
  if f.variadic then
    let fixed := n - 1
    setCurrent fnEnv
    bindParams rec fnEnv saved args (usableDefaults f)
      (expects ++ "at least " ++ toString fixed) 0 (f.parameters.take fixed)
    setCurrent saved
    let rest ← onWorld fun w => w.newArray (args.drop fixed)
    match f.parameters[fixed]? with
    | some name => defineAt fnEnv name rest
    | none => throw .crashed
  else
    if n < args.length then
      throw (runtimeError (expects ++ "at most " ++ toString n ++ " args, got " ++
        toString args.length))
    setCurrent fnEnv
    bindParams rec fnEnv saved args (usableDefaults f) (expects ++ toString n) 0 f.parameters
    setCurrent saved

/-- The name of a function in a frame. -/
def frameName (f : LookFunction) : String := if f.name = "" then "<closure>" else f.name

/-- The way out of a call: the frame is popped, and `prev` is current again. -/
def leaveCall (prev : Nat) (s : InterpState) : InterpState :=
  { s with current := prev, callDepth := s.callDepth - 1, callStack := s.callStack.tail }

/-- The body of a call.  A `return` is its value, and a plain error gets its
location. -/
def runBody (f : LookFunction) (fnEnv : Nat) : Interp Value := fun s =>
  match forEach f.body rec.exec
      { s with current := fnEnv, callDepth := s.callDepth + 1,
               callStack := frameName f :: s.callStack } with
  | .ok _ s' => .ok .none (leaveCall s.current s')
  | .error (.ret v) s' => .ok v (leaveCall s.current s')
  | .error (.std m) s' => .error (runtimeError m) (leaveCall s.current s')
  | .error e s' => .error e (leaveCall s.current s')
  | .timeout => .timeout

/-- `call_function`. -/
def callFunction (f : LookFunction) (args : List Value) : Interp Value := do
  if maxCallDepth ≤ (← gets InterpState.callDepth) then
    throw (runtimeError ("Stack overflow: max call depth exceeded in '" ++ f.name ++ "'"))
  let fnEnv ← newEnv f.closure true
  bindCall rec f fnEnv args
  runBody rec f fnEnv

/-- `evaluate_expression`. -/
def evalExpr : Expr → Interp Value
  | .stringLit value raw => evalStringLit host rec value raw
  | .numberLit i => pure (.int i)
  | .floatLit d => pure (.float d)
  | .boolLit b => pure (.bool b)
  | .nullLit => pure .none
  | .arrayLit elements => do
    let vs ← mapEach elements rec.eval
    onWorld fun w => w.newArray vs
  | .assocLit pairs => evalAssocLit rec pairs
  | .function ps ds caps variadic body => evalFunction ps ds caps variadic body
  | .var name => getVar name
  | .index object key => do
    let obj ← rec.eval object
    let idx ← rec.eval key
    ofExcept (index (← arrays) obj idx)
  | .unary op right pre => evalUnary rec op right pre
  | .binary left op right => evalBinary rec left op right
  | .assign name op object key value => evalAssign rec name op object key value
  | .call callee arguments => evalCall host rec callee arguments
  | .ternary c t e => do if ← truthy (← rec.eval c) then rec.eval t else rec.eval e
  | .scope moduleName memberName => host.scope moduleName memberName
  | .iota => do return .int (Int64.ofNat (← gets InterpState.iota))
  | .member object field => do
    let obj ← rec.eval object
    ofExcept (member (← arrays) obj field)
  | .structLit name fields => evalStructLit rec name fields

/-! ## Statements -/

def execBlock (block : Block) : Interp Unit := inScope (forEach block rec.exec)

/-- `build_output`: the texts of all arguments, before anything is written. -/
def buildOutput (isFirst : Bool) : List Expr → Interp String
  | [] => pure ""
  | e :: rest => do
    let text ← textOf (← rec.eval e)
    let more ← buildOutput false rest
    return (if isFirst then "" else " ") ++ text ++ more

/-- How a turn of a loop ends. -/
inductive Turn where
  | next
  | leave
deriving DecidableEq

/-- The body of a loop: `break` ends the loop, `continue` the turn. -/
def loopBody (m : Interp Unit) : Interp Turn :=
  tryCatch (do m; return .next) fun e =>
    match e with
    | .break => pure .leave
    | .continue => pure .next
    | e => throw e

/-- A loop with at most `turns` turns; `timeout` when they are not enough. -/
def loop (cond : Interp Bool) (body : Interp Turn) (post : Interp Unit) : Nat → Interp Unit
  | 0 => timeout
  | turns + 1 => do
    if ← cond then
      match ← body with
      | .leave => pure ()
      | .next =>
        post
        loop cond body post turns

def execWhile (turns : Nat) (c : Expr) (body : Block) : Interp Unit :=
  loop (do truthy (← rec.eval c)) (loopBody (execBlock rec body)) (pure ()) turns

/-- The scope of a `for` is left on the normal way out only. -/
def execFor (turns : Nat) (init : Option Stmt) (c post : Option Expr) (body : Block) :
    Interp Unit := do
  let prev ← gets InterpState.current
  setCurrent (← newEnv prev false)
  match init with
  | some s => rec.exec s
  | none => pure ()
  loop (match c with
      | some c => do truthy (← rec.eval c)
      | none => pure true)
    (loopBody (execBlock rec body))
    (match post with
      | some e => do let _ ← rec.eval e
      | none => pure ()) turns
  setCurrent prev

/-- One turn of a `foreach`, in an environment of its own. -/
def foreachTurn (keyVar valueVar : String) (body : Block) (key val : Value) : Interp Turn :=
  loopBody (inScope do
    if keyVar ≠ "" then define keyVar key
    define valueVar val
    forEach body rec.exec)

/-- The turns of a `foreach` over the array at `p` from position `idx` on; an
associative array is walked in steps of two. -/
def foreachFrom (p : Nat) (assoc : Bool) (turn : Value → Value → Interp Turn) :
    Nat → Nat → Interp Unit
  | 0, _ => timeout
  | turns + 1, idx => do
    let vec ← gets fun s => s.world.array p
    if (if assoc then idx + 1 < vec.length else idx < vec.length) then
      let r ← if assoc then turn (vec.getD idx .none) (vec.getD (idx + 1) .none)
        else turn (.int (Int64.ofNat idx)) (vec.getD idx .none)
      match r with
      | .leave => pure ()
      | .next => foreachFrom p assoc turn turns (if assoc then idx + 2 else idx + 1)

def execForeach (turns : Nat) (iterable : Expr) (keyVar valueVar : String) (body : Block) :
    Interp Unit := do
  match ← rec.eval iterable with
  | .array p =>
    let assoc := isAssoc (← gets fun s => s.world.array p)
    foreachFrom p assoc (foreachTurn rec keyVar valueVar body) turns (if assoc then 1 else 0)
  | _ => throw (.std "foreach requires an array")

/-- The value that a `catch` sees, of a signal that it catches. -/
def caught : Signal → Option Value
  | .runtimeError m v => some (v.getD (.string m))
  | .std what => some (.string what)
  | .routeStop => some (.string "route_stop")
  | _ => none

/-- The signals after which `finally` still runs when they leave the catch
block. -/
def leavesCatch : Signal → Bool
  | .ret _ => true
  | .break => true
  | .continue => true
  | .exit _ => true
  | .routeMatched => true
  | _ => false

def execFinally (block : Option Block) : Interp Unit :=
  match block with
  | some b => execBlock rec b
  | none => pure ()

def execTry (tryBlock : Block) (catchVar : String) (catchBlock finallyBlock : Option Block) :
    Interp Unit := do
  tryCatch (execBlock rec tryBlock) fun e => do
    if e = .crashed then throw e
    match caught e, catchBlock with
    | some v, some block =>
      if catchVar ≠ "" then define catchVar v
      tryCatch (execBlock rec block) fun e => do
        if leavesCatch e then execFinally rec finallyBlock
        throw e
    | _, _ =>
      execFinally rec finallyBlock
      throw e
  execFinally rec finallyBlock

/-- The body of one case; `break` ends the case. -/
def runCase (body : Block) : Interp Unit :=
  tryCatch (inScope (forEach body rec.exec)) fun e => if e = .break then pure () else throw e

/-- Whether one of the values is the subject, evaluating them in order. -/
def matchesAny (subject : Value) : List Expr → Interp Bool
  | [] => pure false
  | e :: rest => do
    if subject.eq (← rec.eval e) then return true
    matchesAny subject rest

/-- Run the first case that matches, and the last default when none does. -/
def switchFrom (subject : Value) : List (List Expr × Block) → Option Block → Interp Unit
  | [], none => pure ()
  | [], some body => runCase rec body
  | (values, body) :: rest, dflt => do
    if values.isEmpty then switchFrom subject rest (some body)
    else if ← matchesAny rec subject values then runCase rec body
    else switchFrom subject rest dflt

def execSwitch (subject : Expr) (cases : List (List Expr × Block)) : Interp Unit := do
  switchFrom rec (← rec.eval subject) cases none

/-- The items of a `const` block from position `i` on; `last` is the last
initialiser that was written. -/
def constItems : Nat → Option Expr → List (String × Option Expr) → Interp Unit
  | _, _, [] => pure ()
  | i, last, (name, init) :: rest => do
    modify fun s => { s with iota := i }
    let last := init <|> last
    let v ← match last with
      | some e => rec.eval e
      | none => pure (.int (Int64.ofNat i))
    setVar name v
    constItems (i + 1) last rest

def execConstBlock (items : List (String × Option Expr)) : Interp Unit := do
  constItems rec 0 none items
  modify fun s => { s with iota := 0 }

def structField (field : String × Option Expr) : Interp StructFieldDef := do
  match field.2 with
  | some e => return { name := field.1, default := some (← rec.eval e) }
  | none => return { name := field.1, default := none }

def execStructDecl (name : String) (fields : List (String × Option Expr)) : Interp Unit := do
  let defs ← mapEach fields (structField rec)
  modify fun s => { s with structDefs := fun n => if n = name then some defs else s.structDefs n }

def execFuncDecl (name : String) (parameters : List String) (defaults : List (Option Expr))
    (variadic : Bool) (body : Block) : Interp Unit := do
  if isReservedBuiltin name then
    throw (.std ("'" ++ name ++ "' is a builtin — cannot be redefined"))
  let closure ← gets InterpState.current
  let fn ← newFunction { name := name, parameters := parameters, variadic := variadic, body := body,
                         closure := closure, defaults := defaults }
  define name fn

/-- `execute_statement`; a loop makes at most `turns` turns. -/
def execKind (turns : Nat) : StmtKind → Interp Unit
  | .expression e => do let _ ← rec.eval e
  | .print es => do write ((← buildOutput rec true es) ++ "\n")
  | .write es => do write (← buildOutput rec true es)
  | .ret none => throw (.ret .none)
  | .ret (some e) => do throw (.ret (← rec.eval e))
  | .throw e => do
    let v ← rec.eval e
    throw (.runtimeError (← textOf v) (some v))
  | .break => throw .break
  | .continue => throw .continue
  | .use name _ => host.use name
  | .useFile path => host.useFile path
  | .block b => execBlock rec b
  | .if c t e => do
    if ← truthy (← rec.eval c) then execBlock rec t
    else match e with
      | some e => execBlock rec e
      | none => pure ()
  | .while c body => execWhile rec turns c body
  | .for init c post body => execFor rec turns init c post body
  | .foreach it k v body => execForeach rec turns it k v body
  | .tryCatch t x c f => execTry rec t x c f
  | .switch subject cases => execSwitch rec subject cases
  | .constBlock items => execConstBlock rec items
  | .structDecl name fields => execStructDecl rec name fields
  | .functionDecl name ps ds variadic body => execFuncDecl name ps ds variadic body

def execStmt (turns : Nat) : Stmt → Interp Unit
  | .mk _ kind => execKind host rec turns kind

/-- The recursive entry points with `fuel` nested calls left. -/
def recAt : Nat → InterpRec
  | 0 => { eval := fun _ => timeout, exec := fun _ => timeout, call := fun _ _ => timeout }
  | fuel + 1 =>
    { eval := evalExpr host (recAt fuel)
      exec := execStmt host (recAt fuel) fuel
      call := callFunction (recAt fuel) }

/-- `Interpreter::interpret`. -/
def interpret (fuel : Nat) (program : Program) : Interp Unit :=
  forEach program (recAt host fuel).exec

end Interp

end Look
