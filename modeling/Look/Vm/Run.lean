/-
`VM::run` as a step relation, and the ways into it.

A configuration is a machine, the world it works on, and the native stack.  One
step executes one instruction, or one action of the builtin that is running, or
hands the outcome of an activation to its caller.
-/
import Look.Vm.Instr

namespace Look

/-- An activation of `run`: what its `FloorGuard` puts back when it ends, and
the builtin that waits for its outcome, with the register that the builtin's own
result goes to. -/
structure Activation where
  prevFloor : Nat
  entrySize : Nat
  caller : Option ((Except Exn Value → HostProg) × Nat)

/-- What the innermost native function is doing. -/
inductive Control where
  /- The dispatch loop of the innermost activation. -/
  | run
  | host (prog : HostProg) (dest : Nat)
  | sending (channel gen : Nat)
  /- The outermost call has ended. -/
  | returned (outcome : Except Exn Value)
  | ub
  | wild
  | crashed

structure Config where
  vm : Vm
  world : World
  control : Control
  stack : List Activation

/-- A task that `parallel` starts: a machine of its own with a copy of the
globals. -/
structure Task where
  fn : Value
  globals : String → Option Value
  isolate : Bool

namespace Config

def state (c : Config) : VmState := { vm := c.vm, world := c.world }

def withState (c : Config) (s : VmState) : Config := { c with vm := s.vm, world := s.world }

end Config

namespace Vm

/-- `run` is entered: `FloorGuard` remembers the floor and the size of the try
stack, and the handlers that exist are out of reach. -/
def enterRun (vm : Vm) (caller : Option ((Except Exn Value → HostProg) × Nat)) :
    Vm × Activation :=
  ({ vm with tryFloor := vm.tryStack.length },
   { prevFloor := vm.tryFloor, entrySize := vm.tryStack.length, caller := caller })

/-- `run` is left, by a return or by an exception: the guard drops the handlers
that are left over and puts the floor back. -/
def leaveRun (vm : Vm) (a : Activation) : Vm :=
  { vm with tryStack := vm.tryStack.drop (vm.tryStack.length - a.entrySize)
            tryFloor := a.prevFloor }

end Vm

namespace Instr

open Exec

variable [DoubleOps]

/-- `call_closure` up to the nested `run`. -/
def prepareCall (c : Closure) (args : List Value) : Instr Unit := do
  if Vm.maxCallDepth ≤ (← gets fun s => s.vm.callStack.length) then vmError stackOverflow
  let base ← gets fun s => s.vm.regs.length
  resizeRegs (base + c.proto.regCount)
  pushFrame { closure := c, ip := 0, base := base, retReg := none, argc := args.length }
  bindArgs c.proto base args

/-- The instruction at the pointer of the top frame.  The loop ends when there
is no frame left, and the end of the code returns null. -/
def fetchExec (m : Machine) : Instr Next := do
  match ← gets fun s => s.vm.callStack with
  | [] => return .ret .none
  | f :: _ =>
    match f.proto.code[f.ip]? with
    | none => popFrame .none
    | some w =>
      setIp (f.ip + 1)
      exec m f w

/-- The value that a `catch` sees; control exceptions are not caught. -/
def caughtValue : Exn → Option Value
  | .vmThrow v => some v
  | .runtimeError message v => some (v.getD (.string message))
  | .std what => some (.string what)
  | _ => none

/-- The exception bridge of `run`: the handler that takes an exception, or the
exception again when there is none. -/
def bridge (e : Exn) : Instr Unit := do
  let vm ← gets VmState.vm
  match caughtValue e, vm.tryStack with
  | some v, entry :: rest =>
    if vm.tryStack.length ≤ vm.tryFloor then throw (.exn e)
    else enterHandler v entry rest
  | _, _ => throw (.exn e)

end Instr

namespace Config

open Instr

variable [DoubleOps]

/-- The innermost activation of `run` ends. -/
def leave (c : Config) (outcome : Except Exn Value) : Config :=
  match c.stack with
  | [] => { c with control := .returned outcome }
  | a :: rest =>
    match a.caller with
    | none => { c with vm := c.vm.leaveRun a, control := .returned outcome, stack := rest }
    | some (k, dest) =>
      { c with vm := c.vm.leaveRun a, control := .host (k outcome) dest, stack := rest }

/-- The dispatch loop goes on after an instruction, or after the bridge. -/
def resume (c : Config) : Res VmState Halt Unit → Config
  | .ok _ s => { c.withState s with control := .run }
  | .error (.exn e) s => (c.withState s).leave (.error e)
  | .error .crashed s => { c.withState s with control := .crashed }
  | .error .wild s => { c.withState s with control := .wild }
  | .error _ s => { c.withState s with control := .ub }
  | .timeout => { c with control := .ub }

/-- An exception inside the dispatch loop. -/
def raise (c : Config) (e : Exn) : Config := c.resume (bridge e c.state)

/-- What the dispatch loop does with the result of an instruction. -/
def advance (c : Config) : Next → Config × Option Task
  | .dispatch => ({ c with control := .run }, none)
  | .ret v => (c.leave (.ok v), none)
  | .host prog dest => ({ c with control := .host prog dest }, none)
  | .spawn fn =>
    ({ c with control := .run },
     some { fn := fn, globals := c.vm.globals, isolate := c.vm.isolateGlobals })
  | .rendezvous ch gen => ({ c with control := .sending ch gen }, none)

/-- One instruction.  `none` is a channel operation that has to wait. -/
def stepRun (m : Machine) (c : Config) : Option (Config × Option Task) :=
  match fetchExec m c.state with
  | .ok next s => some ((c.withState s).advance next)
  | .error (.exn e) s => some ((c.withState s).raise e, none)
  | .error .ub s => some ({ c.withState s with control := .ub }, none)
  | .error .wild s => some ({ c.withState s with control := .wild }, none)
  | .error .crashed s => some ({ c.withState s with control := .crashed }, none)
  | .error .wait _ => none
  | .timeout => none

/-- `call_closure` from native code. -/
def callFrom (c : Config) (fn : Value) (args : List Value)
    (k : Except Exn Value → HostProg) (dest : Nat) : Config :=
  match fn with
  | .bytecodeFn p =>
    match c.world.closures[p]? with
    | none => { c with control := .wild }
    | some closure =>
      match prepareCall closure args c.state with
      | .ok _ s =>
        let (vm, a) := s.vm.enterRun (some (k, dest))
        { vm := vm, world := s.world, control := .run, stack := a :: c.stack }
      | .error (.exn e) s => { c.withState s with control := .host (k (.error e)) dest }
      | _ => { c with control := .ub }
  | _ =>
    let e := Exn.std "vm_bridge_hook: BYTECODE_FN expected"
    { c with control := .host (k (.error e)) dest }

/-- One action of the builtin that is running. -/
def stepHost (c : Config) (dest : Nat) : HostProg → Config
  | .ret v => c.resume (setReg dest v c.state)
  | .throw e => c.raise e
  | .call fn args k => c.callFrom fn args k dest
  | .readArray p k => { c with control := .host (k (c.world.array p)) dest }
  | .writeArray p vs k => { c with world := c.world.setArray p vs, control := .host k dest }
  | .newArray vs k =>
    let (v, w) := c.world.newArray vs
    { c with world := w, control := .host (k v) dest }
  | .clone v k =>
    let (v, w) := deepClone v c.world
    { c with world := w, control := .host (k v) dest }
  | .newChannel capacity k =>
    let ch : Channel := { queue := [], capacity := if capacity = 0 then 1 else capacity,
                          closed := false, unbuffered := capacity = 0, recvGen := 0 }
    { c with world := { c.world with channels := c.world.channels ++ [ch] }
             control := .host (k (.channel c.world.channels.length)) dest }
  | .write text k =>
    { c with vm := { c.vm with output := c.vm.output ++ [text] }, control := .host k dest }

/-- The wait of a sender on an unbuffered channel. -/
def stepSending (c : Config) (p gen : Nat) : Option Config :=
  match c.world.channels[p]? with
  | none => some { c with control := .wild }
  | some ch => if ch.closed ∨ gen < ch.recvGen then some { c with control := .run } else none

/-- One step, and the task that it starts.  `none` when the machine has ended or
has to wait. -/
def step (m : Machine) (c : Config) : Option (Config × Option Task) :=
  match c.control with
  | .run => c.stepRun m
  | .host prog dest => some (c.stepHost dest prog, none)
  | .sending p gen => (c.stepSending p gen).map fun c => (c, none)
  | .returned _ => none
  | .ub => none
  | .wild => none
  | .crashed => none

/-- The machine moves from one configuration to the next. -/
def Steps (m : Machine) (c c' : Config) : Prop := ∃ t, c.step m = some (c', t)

/-- `call_closure` from outside any activation on this machine. -/
def callClosure (vm : Vm) (w : World) (closure : Closure) (args : List Value) : Config :=
  match prepareCall closure args { vm := vm, world := w } with
  | .ok _ s =>
    let (vm, a) := s.vm.enterRun none
    { vm := vm, world := s.world, control := .run, stack := [a] }
  | .error (.exn e) s =>
    { vm := s.vm, world := s.world, control := .returned (.error e), stack := [] }
  | _ => { vm := vm, world := w, control := .ub, stack := [] }

/-- `VM::execute`: the program itself, with no depth check and no arguments. -/
def execute (vm : Vm) (w : World) (program : CompiledProgram) : Config :=
  let closure : Closure := { proto := program.mainProto, captures := [] }
  let base := vm.regs.length
  let vm := { vm with
    regs := vm.regs ++ List.replicate program.mainProto.regCount Value.none
    callStack := { closure := closure, ip := 0, base := base, retReg := none, argc := 0 } ::
      vm.callStack }
  let (vm, a) := vm.enterRun none
  { vm := vm, world := w, control := .run, stack := [a] }

end Config

end Look
