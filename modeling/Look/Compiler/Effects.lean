/-
What the primitives of the compiler return, as equations.

A computation of the compiler that returns is taken apart with `bind_eq_ok`, and
these lemmas say what each of its steps has left behind.
-/
import Look.Compiler.Moves
import Look.Compiler.Stmt

namespace Look

open Exec

namespace Instruction

/-- The word with another target. -/
def withTarget (w : Instruction) (t : Nat) : Instruction := { w with b := t / 256, c := t % 256 }

@[simp] theorem withTarget_op (w : Instruction) (t : Nat) : (w.withTarget t).op = w.op := rfl

@[simp] theorem withTarget_a (w : Instruction) (t : Nat) : (w.withTarget t).a = w.a := rfl

@[simp] theorem withTarget_bx (w : Instruction) (t : Nat) : (w.withTarget t).bx = t :=
  Nat.div_add_mod t 256

@[simp] theorem withTarget_withTarget (w : Instruction) (t u : Nat) :
    (w.withTarget t).withTarget u = w.withTarget u := rfl

end Instruction

namespace CompilerState

def push (s : CompilerState) (w : Instruction) (o : Origin) : CompilerState :=
  { s with cur := s.cur.pushUnit w o [] }

def withRegs (s : CompilerState) (ra : RegisterAllocator) : CompilerState :=
  { s with cur := { s.cur with regs := ra } }

/-- The jump at an address gets a target. -/
def retarget (s : CompilerState) (i t : Nat) : CompilerState :=
  { s with cur := s.cur.setTarget i (t / 256) (t % 256) }

end CompilerState

namespace Compile

variable {s s' : CompilerState} {r : Nat}

theorem emit_eq (op : OpCode) (a b c : Nat) (s : CompilerState) :
    emit op a b c s = .ok () (s.push ⟨op, a, b, c⟩ .plain) := rfl

theorem emitJump_eq (op : OpCode) (a : Nat) (s : CompilerState) :
    emitJump op a s = .ok s.cur.code.length (s.push ⟨op, a, 0, 0⟩ .plain) := rfl

theorem freeTemp_eq (r : Nat) (s : CompilerState) :
    freeTemp r s = .ok () (s.withRegs (s.cur.regs.release r)) := rfl

theorem allocTemp_ok (h : allocTemp s = .ok r s') :
    ∃ ra, s.cur.regs.alloc = .ok (r, ra) ∧ s' = s.withRegs ra := by
  unfold allocTemp Compile.withRegs at h
  split at h
  · rename_i a regs halloc
    cases h
    exact ⟨regs, halloc, rfl⟩
  · cases h

theorem hi8_ok {v hi : Nat} (h : hi8 v s = .ok hi s') : v ≤ 65535 ∧ hi = v / 256 ∧ s' = s := by
  unfold hi8 u16 at h
  rw [bind_apply] at h
  split at h
  · rename_i hu
    split at hu
    · cases hu
    · cases hu
      cases h
      exact ⟨by omega, rfl, rfl⟩
  · cases h
  · cases h

theorem lo8_ok {v lo : Nat} (h : lo8 v s = .ok lo s') : v ≤ 65535 ∧ lo = v % 256 ∧ s' = s := by
  unfold lo8 u16 at h
  rw [bind_apply] at h
  split at h
  · rename_i hu
    split at hu
    · cases hu
    · cases hu
      cases h
      exact ⟨by omega, rfl, rfl⟩
  · cases h
  · cases h

theorem patchJump_ok {i t : Nat} (h : patchJump i t s = .ok () s') : s' = s.retarget i t := by
  unfold patchJump at h
  split at h
  · cases h
  · obtain ⟨hi, s₁, h₁, hrest⟩ := bind_eq_ok.mp h
    obtain ⟨-, rfl, rfl⟩ := hi8_ok h₁
    obtain ⟨lo, s₂, h₂, hset⟩ := bind_eq_ok.mp hrest
    obtain ⟨-, rfl, rfl⟩ := lo8_ok h₂
    cases hset
    rfl

theorem forEach_cons_ok {σ ε α : Type} {m : α → Exec σ ε Unit} {a : α} {rest : List α} {s s' : σ} :
    forEach (a :: rest) m s = .ok () s' ↔ ∃ s₁, m a s = .ok () s₁ ∧ forEach rest m s₁ = .ok () s' := by
  refine Iff.trans (bind_eq_ok (m := m a) (f := fun _ => forEach rest m)) ?_
  exact ⟨fun ⟨_, s₁, h⟩ => ⟨s₁, h⟩, fun ⟨s₁, h⟩ => ⟨(), s₁, h⟩⟩

theorem mapEach_cons_ok {σ ε α β : Type} {m : α → Exec σ ε β} {a : α} {rest : List α} {s s' : σ}
    {bs : List β} : mapEach (a :: rest) m s = .ok bs s' ↔
      ∃ b s₁ bs', m a s = .ok b s₁ ∧ mapEach rest m s₁ = .ok bs' s' ∧ bs = b :: bs' := by
  constructor
  · intro h
    obtain ⟨b, s₁, h₁, h⟩ := bind_eq_ok.mp h
    obtain ⟨bs', s₂, h₂, h⟩ := bind_eq_ok.mp h
    cases h
    exact ⟨b, s₁, bs', h₁, h₂, rfl⟩
  · rintro ⟨b, s₁, bs', h₁, h₂, rfl⟩
    exact bind_eq_ok.mpr ⟨b, s₁, h₁, bind_eq_ok.mpr ⟨bs', s', h₂, rfl⟩⟩

/-! ## Several targets at once -/

/-- Give the jumps at the addresses `js` the target `t`. -/
def patchCode (code : List Instruction) (js : List Nat) (t : Nat) : List Instruction :=
  js.foldl (fun code j => code.modify j (Instruction.withTarget · t)) code

theorem getElem?_patchCode (js : List Nat) (t i : Nat) : ∀ code : List Instruction,
    (patchCode code js t)[i]? =
      if i ∈ js then code[i]?.map (Instruction.withTarget · t) else code[i]? := by
  induction js with
  | nil => intro code; rfl
  | cons j js ih =>
    intro code
    show (patchCode (code.modify j _) js t)[i]? = _
    rw [ih, List.getElem?_modify]
    by_cases hj : j = i
    · subst hj
      by_cases hmem : j ∈ js
      · simp [hmem, Option.map_map, Function.comp_def]
      · simp [hmem]
    · by_cases hmem : i ∈ js
      · simp [hmem, hj]
      · simp [hmem, hj, Ne.symm hj]

theorem length_patchCode (js : List Nat) (t : Nat) : ∀ code : List Instruction,
    (patchCode code js t).length = code.length := by
  induction js with
  | nil => intro code; rfl
  | cons j js ih =>
    intro code
    show (patchCode (code.modify j _) js t).length = _
    rw [ih, List.length_modify]

theorem patchAll_ok {js : List Nat} {t : Nat} (h : patchAll js t s = .ok () s') :
    s' = { s with cur := { s.cur with code := patchCode s.cur.code js t } } := by
  induction js generalizing s with
  | nil =>
    cases h
    rfl
  | cons j js ih =>
    obtain ⟨s₁, h₁, h⟩ := forEach_cons_ok.mp h
    rw [patchJump_ok h₁] at h
    exact ih h

end Compile

end Look
