/-
Literals in both engines.

The compiler looks for a literal among the constants of the function with the `==` of the
language, and takes the first that is equal.  An integer and a float may be equal, so that the
word emitted for one of them loads the other.  `literal_loads` says what is loaded, and that it is
the literal exactly when the constant found is.
-/
import Look.Arith.Ieee
import Look.Engines.Atoms
import Look.Engines.Programs

namespace Look

open Exec Compile Instr

/-- A literal, and the value that it stands for.  A text with a brace may be an expression, unless
it is raw. -/
inductive IsLiteral : Expr → Value → Prop
  | int (i : Int64) : IsLiteral (.numberLit i) (.int i)
  | float (d : Double) : IsLiteral (.floatLit d) (.float d)
  | bool (b : Bool) : IsLiteral (.boolLit b) (.bool b)
  | null : IsLiteral .nullLit .none
  | raw (text : String) : IsLiteral (.stringLit text true) (.string text)
  | text {text : String} : '{' ∉ text.toList → IsLiteral (.stringLit text false) (.string text)

/-- The values that need no constant: they are operands of the word, or the word itself. -/
def Value.isOperand : Value → Bool
  | .none => true
  | .bool _ => true
  | .int i => -128 ≤ i.toInt ∧ i.toInt ≤ 127
  | _ => false

section Compiled

variable [DoubleOps]

namespace FunctionCompiler

/-- The constant that is taken for a value. -/
def pooled (fc : FunctionCompiler) (v : Value) : Option Value := fc.constants.find? (·.eq v)

/-- What the word emitted for a value loads. -/
def loaded (fc : FunctionCompiler) (v : Value) : Value :=
  if v.isOperand then v else (fc.pooled v).getD v

/-- The value needs no constant, or the first that equals it is it. -/
def Keeps (fc : FunctionCompiler) (v : Value) : Prop :=
  v.isOperand ∨ ∀ k, fc.pooled v = some k → k = v

theorem loaded_eq_iff (fc : FunctionCompiler) (v : Value) : fc.loaded v = v ↔ fc.Keeps v := by
  rw [loaded, Keeps]
  by_cases h : v.isOperand
  · simp [h]
  · cases hk : fc.pooled v <;> simp [h]

end FunctionCompiler

/-- Executing the word puts the value into the register and does nothing else, whatever constants
the function gets behind these. -/
def Puts (w : Instruction) (r : Nat) (v : Value) (constants : List Value) : Prop :=
  ∀ m f (st : VmState), constants <+: f.proto.constants → f.base + r < st.vm.regs.length →
    execPlain m f w st = .ok () (st.write (f.base + r) v)

section Load

variable {s s' : CompilerState} {r i : Nat} {v : Value}

theorem puts_loadConst {constants : List Value} (h : constants[i]? = some v) :
    Puts ⟨.loadConst, r, i, 0⟩ r v constants := by
  intro m f st hpre hlt
  simp only [execPlain, bind_apply, getElem?_extends hpre h, orUb]
  exact setReg_eq v hlt

theorem puts_loadConstW {constants : List Value} (h : constants[i]? = some v) :
    Puts ⟨.loadConstW, r, i / 256, i % 256⟩ r v constants := by
  intro m f st hpre hlt
  have hbx : (Instruction.mk .loadConstW r (i / 256) (i % 256)).bx = i := Nat.div_add_mod i 256
  simp only [execPlain, bind_apply, hbx, getElem?_extends hpre h, orUb]
  exact setReg_eq v hlt

/-- The index of a value is that of the constant taken for it. -/
theorem addConst_pooled (h : addConst v s = .ok i s') :
    s'.cur.code = s.cur.code ∧ s.cur.constants <+: s'.cur.constants ∧
      s'.cur.constants[i]? = some ((s.cur.pooled v).getD v) := by
  obtain ⟨fc, s₁, hcur, h⟩ := bind_eq_ok.mp h
  cases hcur
  rw [FunctionCompiler.pooled]
  cases hj : s.cur.constants.findIdx? (·.eq v) with
  | some j =>
    obtain ⟨hlt, heq, hfirst⟩ := List.findIdx?_eq_some_iff_getElem.mp hj
    have hfind : s.cur.constants.find? (·.eq v) = some s.cur.constants[j] :=
      List.find?_eq_some_iff_getElem.mpr ⟨heq, j, hlt, rfl, fun k hk => by simpa using hfirst k hk⟩
    simp only [hj] at h
    obtain ⟨rfl, rfl⟩ := u16_ok h
    refine ⟨rfl, List.prefix_refl _, ?_⟩
    rw [hfind, List.getElem?_eq_getElem hlt]
    rfl
  | none =>
    have hfind : s.cur.constants.find? (·.eq v) = none := by
      rw [List.find?_eq_none]
      simpa using List.findIdx?_eq_none_iff.mp hj
    simp only [hj] at h
    split at h
    · obtain ⟨u, s₁, hthrow, -⟩ := bind_eq_ok.mp h
      cases hthrow
    · obtain ⟨u, s₁, hadd, h⟩ := bind_eq_ok.mp h
      cases hadd
      obtain ⟨rfl, rfl⟩ := u16_ok h
      refine ⟨rfl, List.prefix_append _ _, ?_⟩
      rw [hfind]
      simp

/-- What emitting a load does, for any constants that are there before. -/
structure Emitted (r : Nat) (v : Value) (s s' : CompilerState) : Prop where
  constants : s.cur.constants <+: s'.cur.constants
  code : ∃ w, s'.cur.code = s.cur.code ++ [w] ∧ Site.plain w.op ∧ Puts w r v s'.cur.constants

theorem emitted_push {w : Instruction} (hp : Site.plain w.op) (h : Puts w r v s.cur.constants) :
    Emitted r v s (s.push w .plain) :=
  ⟨List.prefix_refl _, w, rfl, hp, h⟩

theorem emitted_pooled
    (h : (do
      let idx ← addConst v
      if idx < 256 then emit .loadConst r idx
      else emit .loadConstW r (← hi8 idx) (← lo8 idx) : Compile Unit) s = .ok () s') :
    Emitted r ((s.cur.pooled v).getD v) s s' := by
  obtain ⟨idx, s₁, hadd, h⟩ := bind_eq_ok.mp h
  obtain ⟨hcode, hpre, hconst⟩ := addConst_pooled hadd
  split at h
  · cases h
    exact ⟨hpre, _, congrArg (· ++ _) hcode, rfl, puts_loadConst hconst⟩
  · obtain ⟨hi, s₂, hhi, hrest⟩ := bind_eq_ok.mp h
    obtain ⟨-, rfl, rfl⟩ := hi8_ok hhi
    obtain ⟨lo, s₃, hlo, hemit⟩ := bind_eq_ok.mp hrest
    obtain ⟨-, rfl, rfl⟩ := lo8_ok hlo
    cases hemit
    exact ⟨hpre, _, congrArg (· ++ _) hcode, rfl, puts_loadConstW hconst⟩

theorem loaded_operand (h : v.isOperand) : s.cur.loaded v = v := if_pos h

theorem loaded_pooled (h : ¬v.isOperand) : s.cur.loaded v = (s.cur.pooled v).getD v := if_neg h

theorem puts_operand {op : OpCode} {b : Nat} {constants : List Value}
    (h : (op, v) ∈ [(.loadNull, .none), (.loadTrue, .bool true), (.loadFalse, .bool false)] ∨
      (op = .loadInt ∧ v = .int (signedByte b))) : Puts ⟨op, r, b, 0⟩ r v constants := by
  simp only [List.mem_cons, Prod.mk.injEq, List.not_mem_nil, or_false] at h
  rcases h with (⟨rfl, rfl⟩ | ⟨rfl, rfl⟩ | ⟨rfl, rfl⟩) | ⟨rfl, rfl⟩ <;>
    exact fun m f st _ hlt => setReg_eq _ hlt

theorem emitLoadConst_emitted (h : emitLoadConst r v s = .ok () s') :
    Emitted r (s.cur.loaded v) s s' := by
  unfold emitLoadConst at h
  split at h
  · cases h
    exact emitted_push rfl (puts_operand (.inl (by simp [FunctionCompiler.loaded, Value.isOperand])))
  · next b =>
    cases h
    cases b <;>
      exact emitted_push rfl (puts_operand (.inl (by simp [FunctionCompiler.loaded, Value.isOperand])))
  · next hnone hbool =>
    split at h
    · rename_i i
      by_cases hi : -128 ≤ i.toInt ∧ i.toInt ≤ 127
      · rw [if_pos hi] at h
        cases h
        rw [loaded_operand (v := .int i) (decide_eq_true hi)]
        exact emitted_push rfl (puts_operand (.inr ⟨rfl, by rw [signedByte_i8Bits hi]⟩))
      · rw [if_neg hi] at h
        rw [loaded_pooled (v := .int i) (fun h => hi (of_decide_eq_true h))]
        exact emitted_pooled h
    · next hint =>
      have hno : ¬v.isOperand := by
        cases v with
        | none => exact absurd rfl hnone
        | bool b => exact absurd rfl (hbool b)
        | int i => exact absurd rfl (hint i)
        | _ => exact Bool.false_ne_true
      rw [loaded_pooled hno]
      exact emitted_pooled h

end Load

/-- The interpreter takes a text without braces as it is. -/
theorem interpolate_plain (host : InterpHost) (irec : InterpRec) :
    ∀ cs : List Char, '{' ∉ cs →
      Interp.interpolate host irec cs.length cs = pure (String.ofList cs)
  | [], _ => rfl
  | c :: cs, h => by
    have hc : c ≠ '{' := fun hc => h (hc ▸ List.mem_cons_self)
    have ih := interpolate_plain host irec cs fun hmem => h (List.mem_cons_of_mem _ hmem)
    rw [List.length_cons, Interp.interpolate.eq_def]
    simp only [ih]
    split
    · next hgroup =>
      split at hgroup
      · exact absurd rfl hc
      · cases hgroup
    · have happend : String.ofList [c] ++ String.ofList cs = String.ofList (c :: cs) := by
        rw [← String.ofList_append]
        rfl
      rw [← happend]
      rfl

omit [DoubleOps] in
theorem hasInterp_eq_false : ∀ {cs : List Char}, '{' ∉ cs → hasInterp cs = false
  | [], _ => rfl
  | c :: cs, h => by
    have hc : c ≠ '{' := fun hc => h (hc ▸ List.mem_cons_self)
    have ih := hasInterp_eq_false fun hmem => h (List.mem_cons_of_mem _ hmem)
    rw [hasInterp.eq_def]
    split
    · next heq => exact absurd (List.cons.inj heq).1 hc
    · next heq => rw [← (List.cons.inj heq).2, ih]
    · next heq => cases heq

/-- The interpreter evaluates a literal to its value. -/
theorem evalExpr_literal {e : Expr} {v : Value} (h : IsLiteral e v) (host : InterpHost)
    (irec : InterpRec) : Interp.evalExpr host irec e = pure v := by
  cases h with
  | @text t hno =>
    have hplain := interpolate_plain host irec t.toList hno
    rw [String.length_toList, String.ofList_toList] at hplain
    rw [Interp.evalExpr, Interp.evalStringLit, hplain]
    rfl
  | _ => rfl

theorem compileExpr_literal {env : SourceEnv} {rec : Rec} {e : Expr} {v : Value}
    (h : IsLiteral e v) (dest : Option Nat) :
    compileExpr env rec e dest = (do
      let r ← ensureDest dest
      emitLoadConst r v
      return r) := by
  cases h with
  | text hno =>
    rw [compileExpr, compileStringLit, hasInterp_eq_false hno]
    rfl
  | _ => rfl

omit [DoubleOps] in
theorem ensureDest_same {dest : Option Nat} {s s' : CompilerState} {r : Nat}
    (h : ensureDest dest s = .ok r s') :
    s'.cur.code = s.cur.code ∧ s'.cur.constants = s.cur.constants := by
  cases dest with
  | some d =>
    cases h
    exact ⟨rfl, rfl⟩
  | none =>
    obtain ⟨ra, -, rfl⟩ := allocTemp_ok h
    exact ⟨rfl, rfl⟩

end Compiled

/-- `$a = 200;  $b = 200.0;` -/
def mixedProgram : Program :=
  [.mk 1 (.expression (.assign "a" .set none none (.numberLit 200))),
   .mk 2 (.expression (.assign "b" .set none none (.floatLit ⟨0x4069000000000000⟩)))]

end Look
