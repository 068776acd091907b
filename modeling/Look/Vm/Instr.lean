/-
What each instruction does, the `switch` of `VM::run`.

The operators that read one or two registers and write one are tables from
opcodes to functions on values.  Every other instruction is written out.
-/
import Look.Vm.State

namespace Look

/-! ## Hints

The VM recognises the hint words of an instruction by their opcode, from the
address behind the instruction on. -/

namespace FunctionProto

/-- The `NOP` at an address, if there is one. -/
def nopHint (p : FunctionProto) (ip : Nat) : Option Instruction :=
  (p.code[ip]?).filter fun w => w.op = .nop

/-- The registers named by the `LOAD_CAPTURE 0 r` words from an address on. -/
def captureHints (p : FunctionProto) (ip : Nat) : List Nat :=
  ((p.code.drop ip).takeWhile fun h => h.op = .loadCapture ∧ h.a = 0).map Instruction.b

end FunctionProto

namespace Instr

open Exec

variable [DoubleOps]

/-! ## Operators -/

/-- The fast path of `ADD`, `SUB` and `MUL` for two integers. -/
def fastArith (exact : Int → Int → Int) (slow : Value → Value → Except Fault Value)
    (x y : Value) : Except Fault Value :=
  match x, y with
  | .int a, .int b =>
    match Value.int64Checked exact a b with
    | some r => .ok (.int r)
    | none => slow x y
  | _, _ => slow x y

/-- The instructions `r[a] = r[b] op r[c]`. -/
def binaryFn (arrays : Arrays) : OpCode → Option (Value → Value → Except Fault Value)
  | .add => some (fastArith (· + ·) Value.add)
  | .sub => some (fastArith (· - ·) Value.sub)
  | .mul => some (fastArith (· * ·) Value.mul)
  | .div => some Value.div
  | .mod => some Value.mod
  | .pow => some fun x y => .ok (x.pow y)
  | .band => some fun x y => .ok (x.bitwiseAnd y)
  | .bor => some fun x y => .ok (x.bitwiseOr y)
  | .bxor => some fun x y => .ok (x.bitwiseXor y)
  | .shl => some fun x y => .ok (x.shiftLeft y)
  | .shr => some fun x y => .ok (x.shiftRight y)
  | .eq => some fun x y => .ok (.bool (x.eq y))
  | .neq => some fun x y => .ok (.bool (!x.eq y))
  | .lt => some fun x y => (x.lt y).map .bool
  | .gt => some fun x y => (x.gt y).map .bool
  | .lte => some fun x y => (x.le y).map .bool
  | .gte => some fun x y => (x.ge y).map .bool
  | .cmp3 => some Value.spaceship
  | .coalesce => some fun x y => .ok (if x = .none then y else x)
  | .arrayGet => some (arrayGet arrays)
  | _ => none

def typeName : Value → String
  | .int _ => "int"
  | .float _ => "float"
  | .string _ => "string"
  | .bool _ => "bool"
  | .function _ => "function"
  | .array _ => "array"
  | .channel _ => "channel"
  | .websocket _ => "websocket"
  | .sseConn _ => "sse"
  | .bytecodeFn _ => "function"
  | .none => "null"

/-- The instructions `r[a] = op r[b]`. -/
def unaryFn (arrays : Arrays) : OpCode → Option (Value → Except Fault Value)
  | .move => some .ok
  | .loadVar => some .ok
  | .storeVar => some .ok
  | .unm => some fun x => .ok x.neg
  | .bnot => some fun x => .ok x.bitwiseNot
  | .not => some fun x => .ok (.bool (!x.isTruthy arrays))
  | .arrayLen => some fun x => .ok (.int (Int64.ofNat (arrayLen arrays x)))
  | .toInt => some fun x => .ok (.int x.toInt)
  | .toFloat => some fun x => .ok (.float x.toFloat)
  | .toStr => some fun x => (x.toStr arrays).map .string
  | .toBool => some fun x => .ok (.bool (x.isTruthy arrays))
  | .typeOf => some fun x => .ok (.string (typeName x))
  | _ => none

/-- `LOAD_INT`: the byte as a signed number. -/
def signedByte (b : Nat) : Int64 := Int64.ofInt (if b < 128 then b else (b : Int) - 256)

/-! ## Globals -/

/-- The text of a constant, which names a global or a field. -/
def constStr (proto : FunctionProto) (i : Nat) : Instr String := do
  return (← orUb proto.constants[i]?).strRef

/-- `(*gcache)[ni]`, from a vector as long as the constant pool. -/
def cachedSlot (proto : FunctionProto) (ni : Nat) : Instr (Option String) := do
  let _ ← orUb proto.constants[ni]?
  gets fun s => s.vm.globalCache proto.uid ni

def pinSlot (proto : FunctionProto) (ni : Nat) (name : String) : Instr Unit :=
  modifyVm fun vm => { vm with globalCache := fun u i =>
    if u = proto.uid ∧ i = ni then some name else vm.globalCache u i }

def setGlobal (name : String) (v : Value) : Instr Unit :=
  modifyVm fun vm => { vm with globals := fun n => if n = name then some v else vm.globals n }

def markIsolated (name : String) : Instr Unit :=
  modifyVm fun vm => { vm with isolated := fun n => n = name || vm.isolated n }

/-- The first read of a global in a request: a value that carries mutable state
is copied into the slot before it is used. -/
def isolateGlobal (name : String) (v : Value) : Instr Value := do
  let s ← gets id
  if s.vm.isolateGlobals ∧ !s.vm.isolated name then
    markIsolated name
    if carriesMutableState s.world v then
      let v' ← onWorld (deepClone v)
      setGlobal name v'
      return v'
  return v

def undefinedVariable (name : String) : String := "Undefined variable: " ++ name

def loadGlobal (m : Machine) (proto : FunctionProto) (dest ni : Nat) : Instr Unit := do
  match ← cachedSlot proto ni with
  | some name => setReg dest ((← gets fun s => s.vm.globals name).getD .none)
  | none =>
    let name ← constStr proto ni
    match ← gets fun s => s.vm.globals name with
    | some v =>
      let v ← isolateGlobal name v
      pinSlot proto ni name
      setReg dest v
    | none =>
      if name.toList.head? = some '$' ∧ !m.warnUndef then vmError (undefinedVariable name)
      else setReg dest .none

def storeGlobal (proto : FunctionProto) (src ni : Nat) : Instr Unit := do
  match ← cachedSlot proto ni with
  | some name => setGlobal name (← getReg src)
  | none =>
    let name ← constStr proto ni
    setGlobal name (← getReg src)
    if ← gets fun s => s.vm.isolateGlobals then markIsolated name
    pinSlot proto ni name

/-! ## Arrays and structs -/

/-- `push_back` on the array in a register, if it holds one. -/
def pushArray (arr : Value) (vs : List Value) : Instr Unit :=
  match arr with
  | .array p => modify fun s =>
      { s with world := s.world.setArray p (s.world.array p ++ vs) }
  | _ => pure ()

/-- `array_set(R(dst), key, val)`. -/
def storeElement (dst : Nat) (key val : Value) : Instr Unit := do
  let arr ← getReg dst
  let (arr, e) ← onWorld fun w => let (arr, w, e) := arraySet w arr key val; ((arr, e), w)
  setReg dst arr
  match e with
  | none => pure ()
  | some e => fault e

/-- The declared fields of a struct definition. -/
def declaredFields : List Value → List Value
  | f :: _ :: rest => f :: declaredFields rest
  | _ => []

/-- Read the field names in the hint block from `ip` on, and reject one that the
definition does not declare. -/
def checkFields (proto : FunctionProto) (sname : String) (defn : List Value) (ip : Nat) :
    Nat → Instr Unit
  | 0 => pure ()
  | n + 1 => do
    let w ← orUb proto.code[ip]?
    let name ← constStr proto w.bx
    if !(declaredFields defn).contains (.string name) then
      vmError ("Unknown field '" ++ name ++ "' in struct '" ++ sname ++ "'")
    checkFields proto sname defn (ip + 1) n

/-- The fields of a definition with their defaults; an array is copied for each
instance. -/
def structDefaults : List Value → World → List Value × World
  | f :: d :: rest, w =>
    let (d, w) := match d with
      | .array _ => deepClone d w
      | d => (d, w)
    let (rest, w) := structDefaults rest w
    (f :: d :: rest, w)
  | _, w => ([], w)

/-- The fields that a struct starts with.  One without a definition has none. -/
def structFields (proto : FunctionProto) (sname : String) (ip count : Nat) :
    Instr (List Value) := do
  match ← gets fun s => s.vm.globals ("__sdef:" ++ sname) with
  | some (.array p) =>
    let defn ← gets fun s => s.world.array p
    checkFields proto sname defn ip count
    onWorld (structDefaults defn)
  | _ => return []

/-- `NEW_STRUCT`; `ip` is the address behind it. -/
def newStruct (proto : FunctionProto) (ip dest ni : Nat) : Instr Unit := do
  let sname ← constStr proto ni
  let hint := proto.nopHint ip
  let count := (hint.map Instruction.a).getD 0
  let fields ← structFields proto sname (ip + 1) count
  let v ← onWorld fun w => w.newArray (assocTag :: structTag :: .string sname :: fields)
  setReg dest v
  if hint.isSome then setIp (ip + 1 + count)

/-- `FOR_STEP`: the next element of the array in `r[a]`, or a jump. -/
def forStep (base a target : Nat) : Instr Unit := do
  let arr ← getReg (base + a)
  let idx := (← getReg (base + a + 1)).rawInt
  match arr with
  | .array p =>
    let vec ← gets fun s => s.world.array p
    if isAssoc vec then
      let pi := (pairsStart vec : Int) + idx * 2
      if (vec.length : Int) ≤ pi + 1 then setIp target
      else
        setReg (base + a + 3) (← deref vec[pi.toNat]?)
        setReg (base + a + 2) (← deref vec[pi.toNat + 1]?)
        setReg (base + a + 1) (.int (Int64.ofInt (idx + 1)))
    else if (vec.length : Int) ≤ idx then setIp target
    else
      setReg (base + a + 2) (← deref vec[idx.toNat]?)
      setReg (base + a + 3) (.int (Int64.ofInt idx))
      setReg (base + a + 1) (.int (Int64.ofInt (idx + 1)))
  | _ => setIp target

/-! ## Calls -/

def setRegs (base : Nat) : List Value → Instr Unit
  | [] => pure ()
  | v :: rest => do
    setReg base v
    setRegs (base + 1) rest

/-- The registers from `base` on. -/
def getRegs (base : Nat) : Nat → Instr (List Value)
  | 0 => pure []
  | n + 1 => do
    let v ← getReg base
    let rest ← getRegs (base + 1) n
    return v :: rest

/-- Bind the arguments of a call to the parameters from `base` on.  A variadic
function collects the arguments from its last parameter on; it always has a
parameter. -/
def bindArgs (proto : FunctionProto) (base : Nat) (args : List Value) : Instr Unit := do
  if proto.variadic then
    let fixed := proto.arity - 1
    setRegs base (args.take fixed)
    let rest ← onWorld fun w => w.newArray (args.drop fixed)
    if 0 < proto.arity then setReg (base + fixed) rest
  else setRegs base (args.take proto.arity)

def stackOverflow : String := "Stack overflow (max 500)"

/-- The frame in which `CALL` and `TAIL_CALL` run the closure at an address. -/
def openFrame (base dest args argc p : Nat) : Instr Frame := do
  let c ← deref (← gets fun s => s.world.closures[p]?)
  let newBase ← gets fun s => s.vm.regs.length
  resizeRegs (newBase + c.proto.regCount)
  let vs ← getRegs (base + args) (if c.proto.variadic then argc else min argc c.proto.arity)
  bindArgs c.proto newBase vs
  if Vm.maxCallDepth ≤ (← gets fun s => s.vm.callStack.length) then vmError stackOverflow
  return { closure := c, ip := 0, base := newBase, retReg := some (base + dest), argc := argc }

/-- The error of a call whose callee is not a function. -/
def notCallable {α : Type} (proto : FunctionProto) (callee : Value) (cname : Nat) :
    Instr α := do
  if cname = 0 then vmError "Not callable (function expected)"
  let name ← constStr proto (cname - 1)
  if callee = .none then vmError (undefinedVariable name)
  vmError ("'" ++ name ++ "' is not callable (function expected)")

/-- Skip the `NOP` hint of a call. -/
def skipNop (proto : FunctionProto) (ip : Nat) : Instr Unit :=
  if (proto.nopHint ip).isSome then setIp (ip + 1) else pure ()

/-- `CALL` up to the new frame; `ip` is the address behind it. -/
def call (proto : FunctionProto) (ip base : Nat) (w : Instruction) : Instr Frame := do
  let hint := proto.nopHint ip
  skipNop proto ip
  let callee ← getReg (base + w.b)
  match callee with
  | .bytecodeFn p => openFrame base w.a w.c ((hint.map Instruction.a).getD 0) p
  | v => notCallable proto v ((hint.map Instruction.bx).getD 0)

def tailCall (proto : FunctionProto) (ip base : Nat) (w : Instruction) : Instr Frame := do
  let hint := proto.nopHint ip
  skipNop proto ip
  let callee ← getReg (base + w.b)
  match callee with
  | .bytecodeFn p => openFrame base w.a w.c ((hint.map Instruction.a).getD 0) p
  | _ => vmError "TAIL_CALL: BYTECODE_FN expected"

/-- The module of a builtin's name, if it has one. -/
def moduleOf (name : String) : Option String :=
  if hasScope name.toList then some (String.ofList (name.toList.takeWhile (· ≠ ':'))) else none

def unlinkedBuiltin (bidx : Nat) : String :=
  match builtinNames[bidx]? with
  | some name =>
    match moduleOf name with
    | some moduleName => "Module '" ++ moduleName ++ "' not loaded."
    | none => "Built-in '" ++ name ++ "' unavailable (not linked)"
  | none => "Built-in '" ++ toString bidx ++ "' unavailable (not linked)"

/-- `CALL_BUILTIN`.  Without a hint it passes one argument. -/
def callBuiltin (m : Machine) (proto : FunctionProto) (ip base : Nat) (w : Instruction) :
    Instr Next := do
  let hint := proto.nopHint ip
  skipNop proto ip
  let argc := (hint.map Instruction.a).getD 1
  let bidx := w.b + 256 * (hint.map Instruction.b).getD 0
  match m.builtins.bind (·[bidx]?) with
  | none => vmError ("Unknown built-in: " ++ toString bidx)
  | some entry =>
    let args ← getRegs (base + w.c) argc
    match entry with
    | none => vmError (unlinkedBuiltin bidx)
    | some f => return .host (f args) (base + w.a)

/-- `RETURN` and the end of the code: drop the frame and hand `v` to the
caller, or out of `run` when native code called the function. -/
def popFrame (v : Value) : Instr Next := do
  match ← gets fun s => s.vm.callStack with
  | [] => return .ret .none
  | f :: rest =>
    resizeRegs f.base
    modifyVm fun vm => { vm with callStack := rest }
    match f.retReg with
    | some r =>
      if rest.isEmpty then return .ret v
      setReg r v
      return .dispatch
    | none => return .ret v

/-! ## Closures, exceptions, tasks and channels -/

/-- `MAKE_CLOSURE`; `ip` is the address behind it. -/
def makeClosure (proto : FunctionProto) (ip base : Nat) (w : Instruction) : Instr Unit := do
  let nested ← orUb proto.nested[w.b + 256 * w.c]?
  let hints := proto.captureHints ip
  let captures ← mapEach hints fun r => getReg (base + r)
  setIp (ip + hints.length)
  let v ← onWorld fun w => w.newClosure { proto := nested, captures := captures }
  setReg (base + w.a) v

/-- Drop the frames above a depth, the registers of each with it. -/
def unwindFrames (depth : Nat) : List Frame → List Value → List Frame × List Value
  | [], regs => ([], regs)
  | f :: rest, regs =>
    if depth < (f :: rest).length then
      unwindFrames depth rest (regs.take f.base ++ List.replicate (f.base - regs.length) .none)
    else (f :: rest, regs)

/-- Jump to the innermost handler with `v` as the current exception. -/
def enterHandler (v : Value) (entry : TryCatchEntry) (rest : List TryCatchEntry) :
    Instr Unit := do
  modifyVm fun vm =>
    let (frames, regs) := unwindFrames entry.frameDepth vm.callStack vm.regs
    { vm with currentException := v, tryStack := rest, callStack := frames, regs := regs }
  if ← gets fun s => s.vm.callStack.isEmpty then throw .ub
  setIp entry.catchIp

/-- `THROW`: a handler of this `run` takes the value, or it leaves `run` as a
`LookVmThrow`, whose constructor converts it to text. -/
def throwValue (v : Value) : Instr Unit := do
  modifyVm fun vm => { vm with currentException := v }
  let vm ← gets VmState.vm
  match vm.tryStack with
  | [] =>
    let _ ← ofExcept (v.toStr (← arrays))
    throw (.exn (.vmThrow v))
  | entry :: rest =>
    if vm.tryStack.length ≤ vm.tryFloor then
      let _ ← ofExcept (v.toStr (← arrays))
      throw (.exn (.vmThrow v))
    else enterHandler v entry rest

def taskLimitExceeded (limit : Nat) : String :=
  "parallel(): task limit exceeded (" ++ toString limit ++ "). " ++
    "can be raised with the LOOK_PARALLEL_LIMIT env var."

/-- The captures of a task's closure that are copied: the cells, and whatever is
not a shared handle. -/
def taskCaptures (isCell : List Bool) : Nat → List Value → World → List Value × World
  | _, [], w => ([], w)
  | i, v :: rest, w =>
    let (v, w) := if isCell.getD i false || !isSharedHandle v then deepClone v w else (v, w)
    let (rest, w) := taskCaptures isCell (i + 1) rest w
    (v :: rest, w)

def needsCopy (isCell : List Bool) (captures : List Value) : Bool :=
  captures.zipIdx.any fun (v, i) => isCell.getD i false || !isSharedHandle v

/-- The closure that a task runs. -/
def taskClosure (p : Nat) (w : World) : Value × World :=
  match w.closures[p]? with
  | none => (.bytecodeFn p, w)
  | some c =>
    if needsCopy c.proto.captureIsCell c.captures then
      let (vs, w) := taskCaptures c.proto.captureIsCell 0 c.captures w
      w.newClosure { proto := c.proto, captures := vs }
    else (.bytecodeFn p, w)

def parallelCall (m : Machine) (v : Value) : Instr Next := do
  match v with
  | .bytecodeFn p =>
    if m.taskLimit ≤ (← gets fun s => s.world.activeTasks) then
      vmError (taskLimitExceeded m.taskLimit)
    modify fun s => { s with world := { s.world with activeTasks := s.world.activeTasks + 1 } }
    return .spawn (← onWorld (taskClosure p))
  | _ => vmError "parallel(): BYTECODE_FN expected"

def channelAt (v : Value) (fn : String) : Instr (Nat × Channel) := do
  match v with
  | .channel p => return (p, ← deref (← gets fun s => s.world.channels[p]?))
  | _ => vmError (fn ++ "(): argument is not a channel")

def setChannel (p : Nat) (ch : Channel) : Instr Unit :=
  modify fun s => { s with world := s.world.setChannel p ch }

/-- `send_val`: wait for room, put in a copy, and on an unbuffered channel wait
until it has been taken. -/
def chanSend (target v : Value) : Instr Next := do
  let (p, ch) ← channelAt target "send"
  if !ch.closed ∧ ch.capacity ≤ ch.queue.length then throw .wait
  if ch.closed then vmError "send on closed channel"
  let v ← onWorld (deepClone v)
  setChannel p { ch with queue := ch.queue ++ [v] }
  return if ch.unbuffered then .rendezvous p ch.recvGen else .dispatch

/-- `recv_val`: wait for a value; a closed channel that is empty gives null. -/
def chanRecv (source : Value) : Instr Value := do
  let (p, ch) ← channelAt source "receive"
  match ch.queue with
  | [] => if ch.closed then return .none else throw .wait
  | v :: rest =>
    setChannel p { ch with queue := rest, recvGen := ch.recvGen + 1 }
    return v

/-! ## Dispatch -/

/-- The instructions that write one register, change the instruction pointer of
their own frame, or touch the heap, and then go on. -/
def execPlain (m : Machine) (f : Frame) (w : Instruction) : Instr Unit := do
  let proto := f.proto
  let base := f.base
  let R := fun x => getReg (base + x)
  let setR := fun x v => setReg (base + x) v
  match w.op with
  | .loadConst => setR w.a (← orUb proto.constants[w.b]?)
  | .loadConstW => setR w.a (← orUb proto.constants[w.bx]?)
  | .loadNull => setR w.a .none
  | .loadTrue => setR w.a (.bool true)
  | .loadFalse => setR w.a (.bool false)
  | .loadInt => setR w.a (.int (signedByte w.b))
  | .loadGlobal => loadGlobal m proto (base + w.a) w.bx
  | .storeGlobal => storeGlobal proto (base + w.a) w.bx
  | .concat =>
    let x ← R w.b
    let y ← R w.c
    let h ← arrays
    setR w.a (← ofExcept (if w.a = w.b then x.appendInPlace h y else x.concat h y))
  | .newArray => setR w.a (← onWorld fun s => s.newArray [])
  | .newAssoc => setR w.a (← onWorld fun s => s.newArray [assocTag])
  | .arrayPush => pushArray (← R w.a) [← R w.b]
  | .arraySet => storeElement (base + w.a) (← R w.b) (← R w.c)
  | .assocAppend =>
    match ← R w.a with
    | .array p => pushArray (.array p) [← R w.b, ← R w.c]
    | _ => throw .wild
  | .checkDefined =>
    if (← R w.a) = .none then
      let name ← constStr proto w.bx
      if (← gets fun s => s.vm.globals name).isNone then vmError (undefinedVariable name)
  | .newStruct => newStruct proto (f.ip + 1) (base + w.a) w.bx
  | .getField =>
    let name ← constStr proto w.c
    setR w.a (← ofExcept (arrayGet (← arrays) (← R w.b) (.string name)))
  | .setField =>
    let name ← constStr proto w.b
    storeElement (base + w.a) (.string name) (← R w.c)
  | .jump => setIp w.bx
  | .jumpIfFalse => if !(← R w.a).isTruthy (← arrays) then setIp w.bx
  | .jumpIfTrue => if (← R w.a).isTruthy (← arrays) then setIp w.bx
  | .jumpIfNull => if (← R w.a) = .none then setIp w.bx
  | .makeClosure => makeClosure proto (f.ip + 1) base w
  | .loadCapture =>
    match f.closure.captures[w.b]? with
    | some v => setR w.a v
    | none => vmError ("Capture index out of range: " ++ toString w.b)
  | .forPrep =>
    setR w.a (← R w.b)
    setR (w.a + 1) (.int 0)
  | .forStep => forStep base w.a w.bx
  | .tryPush => modifyVm fun vm => { vm with tryStack :=
      { catchIp := w.bx, frameDepth := vm.callStack.length, regBase := base } :: vm.tryStack }
  | .tryPop => modifyVm fun vm => { vm with tryStack := vm.tryStack.tail }
  | .loadExc => setR w.a (← gets fun s => s.vm.currentException)
  | .loadArgc => setR w.a (.int (Int64.ofNat f.argc))
  | .chanRecv => setR w.a (← chanRecv (← R w.b))
  | .chanClose =>
    let (p, ch) ← channelAt (← R w.a) "close"
    setChannel p { ch with closed := true }
  | .chanSize =>
    let (_, ch) ← channelAt (← R w.b) "chan_size"
    setR w.a (.int (Int64.ofNat ch.queue.length))
  | .nop => pure ()
  | .breakpoint => pure ()
  | op =>
    match binaryFn (← arrays) op, unaryFn (← arrays) op with
    | some g, _ => setR w.a (← ofExcept (g (← R w.b) (← R w.c)))
    | none, some g => setR w.a (← ofExcept (g (← R w.b)))
    | none, none => vmError ("Unknown opcode: " ++ toString op.ctorIdx)

/-- One instruction of the frame `f`, which still points at it; the pointer on
the call stack is already behind it. -/
def exec (m : Machine) (f : Frame) (w : Instruction) : Instr Next :=
  match w.op with
  | .call => do
    pushFrame (← call f.proto (f.ip + 1) f.base w)
    return .dispatch
  | .tailCall => do
    pushFrame (← tailCall f.proto (f.ip + 1) f.base w)
    return .dispatch
  | .callBuiltin => callBuiltin m f.proto (f.ip + 1) f.base w
  | .ret => do popFrame (← getReg (f.base + w.a))
  | .retNull => popFrame .none
  | .throw => do
    throwValue (← getReg (f.base + w.a))
    return .dispatch
  | .parallelCall => do parallelCall m (← getReg (f.base + w.a))
  | .chanSend => do chanSend (← getReg (f.base + w.a)) (← getReg (f.base + w.b))
  | _ => do
    execPlain m f w
    return .dispatch

end Instr

end Look
