/-
The state of a virtual machine and of the native stack above it.

`VM::run` is re-entrant: a builtin is native code that may call a closure, which
runs a nested `run` on the same machine.  The native stack is therefore part of
a configuration.  From the inside out it alternates between an activation of
`run`, the builtin that called it, and the activation of `run` that called the
builtin.

The builtins are a parameter.  A builtin is a `HostProg`: what it does until it
returns, throws, or calls back, and what it does with the outcome of the call.
-/
import Look.Lib.Exec
import Look.Builtins
import Look.Vm.World

namespace Look

/-- A C++ exception.  `LookVmError` and every other `std::exception` that the
VM does not single out are `std`. -/
inductive Exn where
  | routeDisabled
  | routeStop
  | routeMatched
  | exit (code : Int)
  /- `LookVmThrow`, a `throw` of the program on its way through native code. -/
  | vmThrow (value : Value)
  /- `LookRuntimeError`, with the value of `error::new` if it has one. -/
  | runtimeError (message : String) (value : Option Value)
  | std (what : String)
deriving DecidableEq

/-- A frame of the call stack.  `retReg` is the absolute register that takes the
result, or `none` for a function that native code called. -/
structure Frame where
  closure : Closure
  ip : Nat
  base : Nat
  retReg : Option Nat
  argc : Nat

namespace Frame

def proto (f : Frame) : FunctionProto := f.closure.proto

end Frame

structure TryCatchEntry where
  catchIp : Nat
  frameDepth : Nat
  regBase : Nat
deriving DecidableEq

/-- A virtual machine.  The back of a stack of the source is the head of the
list here.  A slot of the table of globals is named by its key: a slot is never
erased, so a pinned pointer to it stays good. -/
structure Vm where
  regs : List Value
  callStack : List Frame
  tryStack : List TryCatchEntry
  tryFloor : Nat
  currentException : Value
  globals : String → Option Value
  isolateGlobals : Bool
  isolated : String → Bool
  /- `global_cache_`: the pinned slot for a function and a constant index. -/
  globalCache : Nat → Nat → Option String
  output : List String

namespace Vm

def maxCallDepth : Nat := 500

/-- A machine with globals `g`, before it runs anything. -/
def init (g : String → Option Value) (isolate : Bool) : Vm where
  regs := []
  callStack := []
  tryStack := []
  tryFloor := 0
  currentException := .none
  globals := g
  isolateGlobals := isolate
  isolated := fun _ => false
  globalCache := fun _ _ => none
  output := []

end Vm

/-- What a builtin does.  Its arguments, the arrays it reads and the outcomes of
its calls are all it learns. -/
inductive HostProg where
  | ret (v : Value)
  | throw (e : Exn)
  | call (fn : Value) (args : List Value) (k : Except Exn Value → HostProg)
  | readArray (p : Nat) (k : List Value → HostProg)
  | writeArray (p : Nat) (vs : List Value) (k : HostProg)
  | newArray (vs : List Value) (k : Value → HostProg)
  | clone (v : Value) (k : Value → HostProg)
  | newChannel (capacity : Nat) (k : Value → HostProg)
  | write (text : String) (k : HostProg)

/-- What a machine is given: the table of builtins, in which an entry is empty
until its module is loaded, the limit on parallel tasks, and whether
`LOOK_WARN_UNDEF` is set. -/
structure Machine where
  builtins : Option (List (Option (List Value → HostProg)))
  taskLimit : Nat
  warnUndef : Bool

/-- One machine and the memory it works on. -/
structure VmState where
  vm : Vm
  world : World

/-- Why an instruction does not complete.  `ub` is an index outside the
registers, the call stack, or the code, constants or functions of a proto, which
the release build does not check; `wild` is a read through a null pointer, past
the end of an array, or of an object that the heap does not have; `crashed` is
an exhausted native stack; `wait` is a channel operation that has to wait. -/
inductive Halt where
  | exn (e : Exn)
  | ub
  | wild
  | crashed
  | wait

/-- What the dispatch loop does after an instruction. -/
inductive Next where
  | dispatch
  /- `run` returns. -/
  | ret (v : Value)
  /- Call a builtin; the result goes to the absolute register `dest`. -/
  | host (prog : HostProg) (dest : Nat)
  /- Start a task with the closure at an address. -/
  | spawn (fn : Value)
  /- Wait until the value sent on an unbuffered channel has been taken. -/
  | rendezvous (channel gen : Nat)

/-- An instruction. -/
abbrev Instr := Exec VmState Halt

namespace Instr

open Exec

def fault {α : Type} : Fault → Instr α
  | .error m => throw (.exn (.std m))
  | .stackExhausted => throw .crashed

def ofExcept {α : Type} : Except Fault α → Instr α
  | .ok a => pure a
  | .error e => fault e

/-- A `LookVmError`. -/
def vmError {α : Type} (message : String) : Instr α := throw (.exn (.std message))

def orUb {α : Type} : Option α → Instr α
  | some a => pure a
  | none => throw .ub

/-- Follow a pointer. -/
def deref {α : Type} : Option α → Instr α
  | some a => pure a
  | none => throw .wild

def arrays : Instr Arrays := gets fun s => s.world.arrays

def modifyVm (f : Vm → Vm) : Instr Unit := modify fun s => { s with vm := f s.vm }

/-- Run an operation on the world. -/
def onWorld {α : Type} (f : World → α × World) : Instr α := fun s =>
  let (a, w) := f s.world
  .ok a { s with world := w }

/-! ## Registers and frames -/

/-- `regs_[i]`. -/
def getReg (i : Nat) : Instr Value := do orUb (← gets fun s => s.vm.regs[i]?)

/-- `regs_[i] = v`. -/
def setReg (i : Nat) (v : Value) : Instr Unit := do
  if i < (← gets fun s => s.vm.regs.length) then
    modifyVm fun vm => { vm with regs := vm.regs.set i v }
  else throw .ub

/-- `regs_.resize(n)`. -/
def resizeRegs (n : Nat) : Instr Unit := modifyVm fun vm =>
  { vm with regs := vm.regs.take n ++ List.replicate (n - vm.regs.length) .none }

/-- Change the frame on top of the call stack. -/
def modifyTop (f : Frame → Frame) : Instr Unit := modifyVm fun vm =>
  { vm with callStack := vm.callStack.modifyHead f }

def setIp (ip : Nat) : Instr Unit := modifyTop fun f => { f with ip := ip }

def pushFrame (f : Frame) : Instr Unit := modifyVm fun vm =>
  { vm with callStack := f :: vm.callStack }

end Instr

end Look
