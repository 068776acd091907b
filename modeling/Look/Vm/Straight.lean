/-
Straight-line code.

`Instr.runWords` executes instructions of one frame one after the other, as the
dispatch loop does while none of them jumps, calls or throws.  The lemmas give
the effect of an instruction on a state whose registers are known.
-/
import Look.Vm.Instr

namespace Look

namespace VmState

/-- The state with another value in the absolute register `i`. -/
def write (s : VmState) (i : Nat) (v : Value) : VmState :=
  { s with vm := { s.vm with regs := s.vm.regs.set i v } }

def withWorld (s : VmState) (w : World) : VmState := { s with world := w }

variable (s : VmState) (i : Nat) (v : Value)

@[simp] theorem write_world : (s.write i v).world = s.world := rfl

@[simp] theorem withWorld_world (w : World) : (s.withWorld w).world = w := rfl

@[simp] theorem withWorld_regs (w : World) : (s.withWorld w).vm.regs = s.vm.regs := rfl

@[simp] theorem length_write : (s.write i v).vm.regs.length = s.vm.regs.length := by
  simp [write]

theorem write_self (h : i < s.vm.regs.length) : (s.write i v).vm.regs[i]? = some v := by
  simp [write, h]

theorem write_of_ne {j : Nat} (h : i ≠ j) :
    (s.write i v).vm.regs[j]? = s.vm.regs[j]? := by
  simp [write, List.getElem?_set_ne h]

end VmState

namespace Instr

open Exec

/-- Instructions of the frame `f`, one after the other. -/
def runWords [DoubleOps] (m : Machine) (f : Frame) (words : List Instruction) : Instr Unit :=
  forEach words (execPlain m f)

variable {s : VmState} {i : Nat} {v : Value}

theorem getReg_eq (h : s.vm.regs[i]? = some v) : getReg i s = .ok v s := by
  simp [getReg, bind_apply, h, orUb]

theorem setReg_eq (v : Value) (h : i < s.vm.regs.length) : setReg i v s = .ok () (s.write i v) := by
  simp [setReg, bind_apply, h, modifyVm, VmState.write]

theorem lt_of_reg (h : s.vm.regs[i]? = some v) : i < s.vm.regs.length :=
  (List.getElem?_eq_some_iff.mp h).1

/-- How the error of an operator ends an instruction. -/
def faultHalt : Fault → Halt
  | .error m => .exn (.std m)
  | .stackExhausted => .crashed

theorem fault_apply {α : Type} (e : Fault) (s : VmState) :
    (fault e : Instr α) s = .error (faultHalt e) s := by
  cases e <;> rfl

/-- What an operator with the result `r` does: write it, or end. -/
def finish (dest : Nat) (s : VmState) : Except Fault Value → Res VmState Halt Unit
  | .ok v => .ok () (s.write dest v)
  | .error e => .error (faultHalt e) s

theorem ofExcept_setReg {dest : Nat} (r : Except Fault Value) (h : dest < s.vm.regs.length) :
    (ofExcept r >>= fun v => setReg dest v) s = finish dest s r := by
  cases r with
  | ok v => exact setReg_eq v h
  | error e => rw [ofExcept, bind_apply, fault_apply]; rfl

section Words

variable [DoubleOps] (m : Machine) (f : Frame) {a b c : Nat} {x y z : Value}

@[simp] theorem runWords_nil : runWords m f [] s = .ok () s := rfl

theorem runWords_cons_ok {w : Instruction} {words : List Instruction} {s' : VmState}
    (h : execPlain m f w s = .ok () s') : runWords m f (w :: words) s = runWords m f words s' := by
  show (Exec.bind (execPlain m f w) fun _ => runWords m f words) s = _
  unfold Exec.bind
  rw [h]

theorem runWords_cons_error {w : Instruction} {words : List Instruction} {s' : VmState} {e : Halt}
    (h : execPlain m f w s = .error e s') : runWords m f (w :: words) s = .error e s' := by
  show (Exec.bind (execPlain m f w) fun _ => runWords m f words) s = _
  unfold Exec.bind
  rw [h]

/-- An instruction that reads two registers and writes one. -/
theorem exec_binary {op : OpCode} {g : Value → Value → Except Fault Value}
    (hop : binaryFn s.world.arrays op = some g) (ha : f.base + a < s.vm.regs.length)
    (hb : s.vm.regs[f.base + b]? = some x) (hc : s.vm.regs[f.base + c]? = some y) :
    execPlain m f ⟨op, a, b, c⟩ s = finish (f.base + a) s (g x y) := by
  have hrun : execPlain m f ⟨op, a, b, c⟩ s =
      (do
        let x ← getReg (f.base + b)
        let y ← getReg (f.base + c)
        let r ← ofExcept (g x y)
        setReg (f.base + a) r : Instr Unit) s := by
    cases op <;> simp only [binaryFn, reduceCtorEq] at hop <;>
      simp [execPlain, bind_apply, arrays, binaryFn, ← Option.some.inj hop]
  rw [hrun, bind_apply, getReg_eq hb]
  simp only [bind_apply, getReg_eq hc]
  exact ofExcept_setReg _ ha

/-- An instruction that reads a register and writes one. -/
theorem exec_unary {op : OpCode} {g : Value → Except Fault Value}
    (hop : unaryFn s.world.arrays op = some g) (ha : f.base + a < s.vm.regs.length)
    (hb : s.vm.regs[f.base + b]? = some x) :
    execPlain m f ⟨op, a, b, c⟩ s = finish (f.base + a) s (g x) := by
  have hrun : execPlain m f ⟨op, a, b, c⟩ s =
      (do
        let x ← getReg (f.base + b)
        let r ← ofExcept (g x)
        setReg (f.base + a) r : Instr Unit) s := by
    cases op <;> simp only [unaryFn, reduceCtorEq] at hop <;>
      simp [execPlain, bind_apply, arrays, binaryFn, unaryFn, ← Option.some.inj hop]
  rw [hrun, bind_apply, getReg_eq hb]
  exact ofExcept_setReg _ ha

theorem exec_arrayGet (ha : f.base + a < s.vm.regs.length)
    (hb : s.vm.regs[f.base + b]? = some x) (hc : s.vm.regs[f.base + c]? = some y) :
    execPlain m f ⟨.arrayGet, a, b, c⟩ s =
      finish (f.base + a) s (arrayGet s.world.arrays x y) :=
  exec_binary m f rfl ha hb hc

/-- `CONCAT` into a register that is not its left operand. -/
theorem exec_concat (hab : a ≠ b) (ha : f.base + a < s.vm.regs.length)
    (hb : s.vm.regs[f.base + b]? = some x) (hc : s.vm.regs[f.base + c]? = some y) :
    execPlain m f ⟨.concat, a, b, c⟩ s =
      finish (f.base + a) s (x.concat s.world.arrays y) := by
  have hrun : execPlain m f ⟨.concat, a, b, c⟩ s =
      (do
        let x ← getReg (f.base + b)
        let y ← getReg (f.base + c)
        let r ← ofExcept (x.concat s.world.arrays y)
        setReg (f.base + a) r : Instr Unit) s := by
    simp only [execPlain, bind_apply, getReg_eq hb, getReg_eq hc, arrays, gets_apply, if_neg hab]
  rw [hrun, bind_apply, getReg_eq hb]
  simp only [bind_apply, getReg_eq hc]
  exact ofExcept_setReg _ ha

theorem exec_arraySet (ha : s.vm.regs[f.base + a]? = some x)
    (hb : s.vm.regs[f.base + b]? = some y) (hc : s.vm.regs[f.base + c]? = some z) :
    execPlain m f ⟨.arraySet, a, b, c⟩ s =
      match arraySet s.world x y z with
      | (arr, w, none) => .ok () ((s.withWorld w).write (f.base + a) arr)
      | (arr, w, some e) => .error (faultHalt e) ((s.withWorld w).write (f.base + a) arr) := by
  have hlt := lt_of_reg ha
  simp only [execPlain, bind_apply, getReg_eq hb, getReg_eq hc, storeElement, getReg_eq ha,
    onWorld]
  cases hset : arraySet s.world x y z with
  | mk arr rest =>
    obtain ⟨w, e⟩ := rest
    have hw : ({ s with world := w } : VmState) = s.withWorld w := rfl
    simp only [hw, setReg_eq arr (by simpa using hlt : f.base + a < (s.withWorld w).vm.regs.length)]
    cases e with
    | none => rfl
    | some e => exact fault_apply e _

end Words

end Instr

end Look
