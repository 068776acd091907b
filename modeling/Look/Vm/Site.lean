/-
The code of one frame at work.

A `Site` is a frame together with what lies below it: the callers and the native
activations, which its own instructions do not touch.  The lemmas say what the
machine does with the word at an address, in the form in which the comparison of
the engines needs it: which configuration comes next.
-/
import Look.Lib.Reach
import Look.Vm.Run
import Look.Vm.Straight
import Look.Vm.Effect

namespace Look

open Exec Instr

structure Site where
  machine : Machine
  frame : Frame
  callers : List Frame
  stack : List Activation

namespace Site

def code (x : Site) : List Instruction := x.frame.proto.code

/-- The machine is about to execute the word at `ip` of this frame. -/
structure At (x : Site) (ip : Nat) (c : Config) : Prop where
  control : c.control = .run
  stack : c.stack = x.stack
  callStack : c.vm.callStack = { x.frame with ip := ip } :: x.callers
  regs : c.vm.regs.length = x.frame.base + x.frame.proto.regCount

/-- A register of the frame. -/
def reg (x : Site) (c : Config) (r : Nat) : Option Value := c.vm.regs[x.frame.base + r]?

def jump (x : Site) (ip : Nat) (c : Config) : Config :=
  { c with vm := { c.vm with callStack := { x.frame with ip := ip } :: x.callers } }

def write (x : Site) (r : Nat) (v : Value) (c : Config) : Config :=
  { c with vm := { c.vm with regs := c.vm.regs.set (x.frame.base + r) v } }

variable {x : Site} {ip r q : Nat} {c c' : Config} {v : Value}

@[simp] theorem reg_jump (t : Nat) : x.reg (x.jump t c) r = x.reg c r := rfl

@[simp] theorem world_jump (t : Nat) : (x.jump t c).world = c.world := rfl

@[simp] theorem world_write : (x.write r v c).world = c.world := rfl

theorem reg_write_self (h : (x.reg c r).isSome) : x.reg (x.write r v c) r = some v := by
  have hlt : x.frame.base + r < c.vm.regs.length := by
    simpa [reg] using h
  simp [reg, write, hlt]

theorem reg_write_of_ne (h : r ≠ q) : x.reg (x.write r v c) q = x.reg c q := by
  have hne : x.frame.base + r ≠ x.frame.base + q := by omega
  simp [reg, write, List.getElem?_set_ne hne]

theorem At.jump (h : x.At ip c) (t : Nat) : x.At t (x.jump t c) :=
  ⟨h.control, h.stack, rfl, h.regs⟩

theorem At.write (h : x.At ip c) (r : Nat) (v : Value) : x.At ip (x.write r v c) :=
  ⟨h.control, h.stack, h.callStack, by simpa [Site.write] using h.regs⟩

theorem At.isSome_reg (h : x.At ip c) (hr : r < x.frame.proto.regCount) :
    (x.reg c r).isSome := by
  have hlt : x.frame.base + r < c.vm.regs.length := by
    have := h.regs
    omega
  simp [reg, hlt]

theorem At.reg_lt (h : x.At ip c) (hr : r < x.frame.proto.regCount) :
    x.frame.base + r < c.vm.regs.length := by
  have := h.regs
  omega

/-- The opcodes that `execPlain` executes. -/
def plain (op : OpCode) : Bool :=
  op ∉ [.call, .tailCall, .callBuiltin, .ret, .retNull, .throw, .parallelCall, .chanSend]

variable [DoubleOps]

theorem exec_plain {m : Machine} {f : Frame} {w : Instruction} (h : plain w.op) (s : VmState) :
    exec m f w s = (do execPlain m f w; return Next.dispatch : Instr Next) s := by
  unfold exec
  cases hop : w.op
  all_goals first
    | rfl
    | (rw [hop] at h; exact absurd h (by decide))

/-- A word that completes. -/
theorem At.step {w : Instruction} {s : VmState} (h : x.At ip c) (hw : x.code[ip]? = some w)
    (hp : plain w.op)
    (hex : execPlain x.machine { x.frame with ip := ip } w (x.jump (ip + 1) c).state = .ok () s) :
    c.Steps x.machine (c.withState s) := by
  have hfetch : fetchExec x.machine c.state = .ok .dispatch s := by
    have hrun : execPlain x.machine { x.frame with ip := ip } w
        (advanceIp c.state { x.frame with ip := ip } x.callers) = .ok () s := hex
    have hcalls : c.state.vm.callStack = { x.frame with ip := ip } :: x.callers := h.callStack
    rw [fetchExec_eq hcalls hw, exec_plain hp, bind_apply, hrun]
    rfl
  refine ⟨none, ?_⟩
  unfold Config.step
  rw [h.control]
  unfold Config.stepRun
  rw [hfetch]
  simp only [Config.advance]
  congr 2
  simp [Config.withState, h.control]

/-- A word whose only effect is a register. -/
theorem At.step_write {w : Instruction} (h : x.At ip c) (hw : x.code[ip]? = some w)
    (hp : plain w.op)
    (hex : execPlain x.machine { x.frame with ip := ip } w (x.jump (ip + 1) c).state =
      .ok () ((x.jump (ip + 1) c).state.write (x.frame.base + r) v)) :
    c.Steps x.machine (x.write r v (x.jump (ip + 1) c)) :=
  h.step hw hp hex

/-- A word whose only effect is the instruction pointer. -/
theorem At.step_jump {w : Instruction} {t : Nat} (h : x.At ip c) (hw : x.code[ip]? = some w)
    (hp : plain w.op)
    (hex : execPlain x.machine { x.frame with ip := ip } w (x.jump (ip + 1) c).state =
      .ok () (x.jump t c).state) :
    c.Steps x.machine (x.jump t c) :=
  h.step hw hp hex

omit [DoubleOps] in
theorem setIp_jump (t n : Nat) : setIp t (x.jump n c).state = .ok () (x.jump t c).state := rfl

/-- `JUMP`. -/
theorem At.step_jumpTo {w : Instruction} (h : x.At ip c) (hw : x.code[ip]? = some w)
    (hop : w.op = .jump) : c.Steps x.machine (x.jump w.bx c) := by
  refine h.step_jump hw (by rw [hop]; rfl) ?_
  unfold execPlain
  simp only [hop]
  exact setIp_jump _ _

/-- The two conditional jumps on truth. -/
theorem At.step_jumpIf {w : Instruction} (h : x.At ip c) (hw : x.code[ip]? = some w)
    (hv : x.reg c w.a = some v) (hop : w.op = .jumpIfTrue ∨ w.op = .jumpIfFalse) :
    c.Steps x.machine
      (x.jump (if v.isTruthy c.world.arrays = decide (w.op = .jumpIfTrue) then w.bx else ip + 1)
        c) := by
  have hreg : (x.jump (ip + 1) c).state.vm.regs[x.frame.base + w.a]? = some v := hv
  have hworld : (x.jump (ip + 1) c).state.world = c.world := rfl
  rcases hop with hop | hop
  · refine h.step_jump hw (by rw [hop]; rfl) ?_
    unfold execPlain
    simp only [hop, bind_apply, getReg_eq hreg, arrays, gets_apply, hworld, decide_true]
    cases v.isTruthy c.world.arrays <;> rfl
  · refine h.step_jump hw (by rw [hop]; rfl) ?_
    unfold execPlain
    simp only [hop, bind_apply, getReg_eq hreg, arrays, gets_apply, hworld, reduceCtorEq,
      decide_false]
    cases v.isTruthy c.world.arrays <;> rfl

/-- `JUMP_IF_NULL`. -/
theorem At.step_jumpIfNull {w : Instruction} (h : x.At ip c) (hw : x.code[ip]? = some w)
    (hv : x.reg c w.a = some v) (hop : w.op = .jumpIfNull) :
    c.Steps x.machine (x.jump (if v = .none then w.bx else ip + 1) c) := by
  have hreg : (x.jump (ip + 1) c).state.vm.regs[x.frame.base + w.a]? = some v := hv
  refine h.step_jump hw (by rw [hop]; rfl) ?_
  unfold execPlain
  simp only [hop, bind_apply, getReg_eq hreg]
  split <;> rfl

/-- An operator on one register. -/
theorem At.step_unary {w : Instruction} {g : Value → Except Fault Value} {a b : Value}
    (h : x.At ip c) (hw : x.code[ip]? = some w) (hp : plain w.op)
    (hop : unaryFn c.world.arrays w.op = some g) (ha : w.a < x.frame.proto.regCount)
    (hb : x.reg c w.b = some a) (hv : g a = .ok b) :
    c.Steps x.machine (x.write w.a b (x.jump (ip + 1) c)) := by
  refine h.step_write hw hp ?_
  have hlt : x.frame.base + w.a < (x.jump (ip + 1) c).state.vm.regs.length := h.reg_lt ha
  rw [exec_unary (s := (x.jump (ip + 1) c).state) x.machine { x.frame with ip := ip } hop hlt hb,
    hv]
  rfl

/-- An operator on two registers that returns a value. -/
theorem At.step_binary {w : Instruction} {g : Value → Value → Except Fault Value} {a b : Value}
    (h : x.At ip c) (hw : x.code[ip]? = some w) (hp : plain w.op)
    (hop : binaryFn c.world.arrays w.op = some g) (ha : w.a < x.frame.proto.regCount)
    (hb : x.reg c w.b = some a) (hc : x.reg c w.c = some b) (hv : g a b = .ok v) :
    c.Steps x.machine (x.write w.a v (x.jump (ip + 1) c)) := by
  refine h.step_write hw hp ?_
  have hlt : x.frame.base + w.a < (x.jump (ip + 1) c).state.vm.regs.length := h.reg_lt ha
  rw [exec_binary (s := (x.jump (ip + 1) c).state) x.machine { x.frame with ip := ip } hop hlt hb
    hc, hv]
  rfl

end Site

end Look
