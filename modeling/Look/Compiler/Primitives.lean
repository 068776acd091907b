/-
The primitives of the compiler keep its invariant.

One lemma for each primitive of `Look.Compiler.FunctionCompiler`, in terms of
`Keeps`.  An address that a primitive gives back is a jump or a boundary of the
layout, and stays one; a register that it gives back is below `max`.
-/
import Look.Compiler.Moves

namespace Look

namespace Compile

open Exec CompilerState

variable {α : Type} {s : CompilerState} {Q : α → CompilerState → Prop}

/-! ## The current function -/

/-- A change of the current function that adds no word. -/
theorem step_of_wider (hs : s.Inv) {fc : FunctionCompiler} (hg : fc.Good)
    (hw : s.cur.layout.Wider fc.layout) :
    ({ s with cur := fc } : CompilerState).Inv ∧ s.Step { s with cur := fc } :=
  ⟨⟨hg, hs.parents⟩, hw.grows, Step.parents_refl _⟩

/-- A change of what the VM does not see. -/
theorem modifyCur_keeps {f : FunctionCompiler → FunctionCompiler}
    {Q : Unit → CompilerState → Prop} (hg : s.cur.Good → (f s.cur).Good)
    (hlayout : (f s.cur).layout = s.cur.layout) (hq : Q () { s with cur := f s.cur }) :
    Keeps (modifyCur f) s Q := by
  refine Keeps.modify (fun hs => ⟨⟨hg hs.cur, hs.parents⟩, ?_, Step.parents_refl _⟩) hq
  show s.cur.layout.Grows (f s.cur).layout
  rw [hlayout]
  exact .refl _

theorem currentIp_keeps : Keeps currentIp s fun i s' => s' = s ∧ s.cur.layout.Boundary i := by
  refine Keeps.intro fun hs => Keeps.gets ⟨rfl, ?_, fun w hw => ?_⟩
  · exact Nat.le_of_eq (FunctionCompiler.length_words hs.cur).symm
  · have hlt := (List.getElem?_eq_some_iff.mp hw).1
    rw [FunctionCompiler.length_words hs.cur] at hlt
    exact Nat.lt_irrefl _ hlt

/-! ## Registers -/

theorem withRegs_keeps {f : RegisterAllocator → Except CompileError (α × RegisterAllocator)}
    (hf : s.Inv → ∀ a ra, f s.cur.regs = .ok (a, ra) →
      ra.Ok ∧ s.cur.regs.max ≤ ra.max ∧ Q a { s with cur := { s.cur with regs := ra } }) :
    Keeps (withRegs f) s Q := by
  intro hs
  unfold Ensures withRegs
  cases hr : f s.cur.regs with
  | error e => exact ⟨hs, .refl s⟩
  | ok x =>
    obtain ⟨hra, hmax, hq⟩ := hf hs x.1 x.2 hr
    have hw : s.cur.layout.Wider ({ s.cur with regs := x.2 } : FunctionCompiler).layout :=
      ⟨rfl, rfl, hmax, List.prefix_refl _, List.prefix_refl _⟩
    have h := step_of_wider hs (hs.cur.withRegs hra hmax) hw
    exact ⟨h.2, h.1, hq⟩

theorem allocTemp_keeps : Keeps allocTemp s fun r s' => r < s'.cur.regs.max :=
  withRegs_keeps fun hs _ _ h =>
    have hra := RegisterAllocator.alloc_ok hs.cur.regs h
    ⟨hra.1, hra.2.2, hra.2.1⟩

theorem allocSeq_keeps (n : Nat) :
    Keeps (allocSeq n) s fun base s' => base + n ≤ s'.cur.regs.max :=
  withRegs_keeps fun hs _ _ h =>
    have hra := RegisterAllocator.allocSeq_ok hs.cur.regs h
    ⟨hra.1, hra.2.2, hra.2.1⟩

theorem modifyRegs_keeps {f : RegisterAllocator → RegisterAllocator}
    (hra : s.cur.regs.Ok → (f s.cur.regs).Ok) (hmax : (f s.cur.regs).max = s.cur.regs.max) :
    Keeps (modifyRegs f) s fun _ _ => True := by
  refine modifyCur_keeps (fun hg => hg.withRegs (hra hg.regs) (Nat.le_of_eq hmax.symm)) ?_ trivial
  simp only [FunctionCompiler.layout, hmax]

theorem freeTemp_keeps {r : Nat} (hr : r < s.cur.regs.max) :
    Keeps (freeTemp r) s fun _ _ => True :=
  modifyRegs_keeps (fun h => RegisterAllocator.release_ok h hr) RegisterAllocator.release_max

theorem releaseSeq_keeps {base n : Nat} (h : base + n ≤ s.cur.regs.max) :
    Keeps (releaseSeq base n) s fun _ _ => True :=
  modifyRegs_keeps (fun hra => RegisterAllocator.releaseSeq_ok hra h)
    RegisterAllocator.releaseSeq_max

/-- A destination that the caller chose is a register. -/
def DestOk (dest : Option Nat) (s : CompilerState) : Prop :=
  ∀ r, dest = some r → r < s.cur.regs.max

theorem destOk_none (s : CompilerState) : DestOk none s := fun _ h => by cases h

theorem destOk_some {r : Nat} (h : r < s.cur.regs.max) : DestOk (some r) s :=
  fun _ hr => Option.some.inj hr ▸ h

theorem DestOk.mono {dest : Option Nat} {s' : CompilerState} (h : DestOk dest s)
    (hmax : s.cur.regs.max ≤ s'.cur.regs.max) : DestOk dest s' :=
  fun r hr => Nat.lt_of_lt_of_le (h r hr) hmax

theorem ensureDest_keeps {dest : Option Nat} (hd : DestOk dest s) :
    Keeps (ensureDest dest) s fun r s' => r < s'.cur.regs.max := by
  cases dest with
  | none => exact allocTemp_keeps
  | some r => exact Keeps.pure (hd r rfl)

/-! ## Narrowing -/

theorem u8_keeps (v : Nat) (what : String) :
    Keeps (u8 v what) s fun r s' => s' = s ∧ r = v ∧ v < 256 :=
  Keeps.ite (fun _ => Keeps.throw) fun h => Keeps.pure ⟨rfl, rfl, by omega⟩

theorem u16_keeps (v : Nat) (what : String) :
    Keeps (u16 v what) s fun r s' => s' = s ∧ r = v ∧ v < 65536 :=
  Keeps.ite (fun _ => Keeps.throw) fun h => Keeps.pure ⟨rfl, rfl, by omega⟩

theorem hi8_keeps (v : Nat) : Keeps (hi8 v) s fun r s' => s' = s ∧ r = v / 256 ∧ r < 256 := by
  refine Keeps.bind (u16_keeps v _) fun r s' _ _ ⟨hs', hr, hv⟩ => Keeps.pure ?_
  subst hr
  exact ⟨hs', rfl, by omega⟩

theorem lo8_keeps (v : Nat) : Keeps (lo8 v) s fun r s' => s' = s ∧ r = v % 256 ∧ r < 256 := by
  refine Keeps.bind (u16_keeps v _) fun r s' _ _ ⟨hs', hr, _⟩ => Keeps.pure ?_
  subst hr
  exact ⟨hs', rfl, by omega⟩

/-! ## Emission -/

/-- The opcodes that neither jump nor have hints. -/
def ordinary (op : OpCode) : Bool :=
  !op.isJump && !(op ∈ [.newStruct, .call, .callBuiltin, .makeClosure])

/-- The operands of a word that is emitted in a state. -/
abbrev Fits (s : CompilerState) (w : Instruction) (o : Origin) : Prop :=
  WordOk s.cur.regs.max s.cur.constants.length s.cur.nested.length w o

/-- Appending an instruction with its hints to the current function. -/
theorem step_pushUnit (hs : s.Inv) {w : Instruction} {o : Origin} {hints : List Instruction}
    (ho : o ≠ .hint) (hg : (s.cur.pushUnit w o hints).Good) :
    ({ s with cur := s.cur.pushUnit w o hints } : CompilerState).Inv ∧
      s.Step { s with cur := s.cur.pushUnit w o hints } := by
  refine ⟨⟨hg, hs.parents⟩, ?_, Step.parents_refl _⟩
  rw [FunctionCompiler.layout_pushUnit hs.cur.origins]
  exact Layout.pushUnit_grows ho

theorem emitAs_keeps {o : Origin} {op : OpCode} {a b c : Nat} (ho : o ≠ .hint)
    (hw : s.Inv → Fits s ⟨op, a, b, c⟩ o)
    (hjump : op.isJump → s.cur.layout.Boundary (256 * b + c))
    (hfit : HintsFit s.cur.constants ⟨op, a, b, c⟩ [] o) :
    Keeps (emitAs o op a b c) s fun i s' =>
      s' = { s with cur := s.cur.pushUnit ⟨op, a, b, c⟩ o [] } ∧
        (op.isJump → s'.cur.layout.IsJump i) := by
  intro hs
  have hg := hs.cur.pushUnit ho (hw hs) hjump hfit nofun
  have h := step_pushUnit hs ho hg
  refine ⟨h.2, h.1, rfl, fun hop => ⟨⟨op, a, b, c⟩, o, ?_, hop⟩⟩
  show (s.cur.pushUnit ⟨op, a, b, c⟩ o []).layout.words[s.cur.code.length]? = _
  rw [FunctionCompiler.layout_pushUnit hs.cur.origins, ← FunctionCompiler.length_words hs.cur]
  exact Layout.getElem?_pushUnit_length

theorem hintsFit_of_ordinary {ks : List Value} {w : Instruction} {o : Origin}
    (ho : o = .plain ∨ o = .leave)
    (hop : w.op ∉ [OpCode.call, .callBuiltin, .newStruct, .makeClosure]) : HintsFit ks w [] o := by
  rcases ho with rfl | rfl <;> exact ⟨rfl, hop⟩

theorem emitOrdinary_keeps {o : Origin} {op : OpCode} {a b c : Nat}
    (ho : o = .plain ∨ o = .leave) (hop : ordinary op) (hw : s.Inv → Fits s ⟨op, a, b, c⟩ o) :
    Keeps (emitAs o op a b c) s fun _ _ => True := by
  simp only [ordinary, Bool.and_eq_true, Bool.not_eq_true', decide_eq_false_iff_not] at hop
  obtain ⟨hjump, hmem⟩ := hop
  refine (emitAs_keeps ?_ hw (fun h => ?_) (hintsFit_of_ordinary ho fun h => hmem ?_)).done
  · rcases ho with rfl | rfl <;> nofun
  · rw [hjump] at h
    cases h
  · simp only [List.mem_cons] at h ⊢
    tauto

theorem emit_keeps {op : OpCode} {a b c : Nat} (hop : ordinary op)
    (hw : s.Inv → Fits s ⟨op, a, b, c⟩ .plain) : Keeps (emit op a b c) s fun _ _ => True :=
  Keeps.bind (emitOrdinary_keeps (.inl rfl) hop hw) fun _ _ _ _ _ => Keeps.pure trivial

section Fits

variable {op : OpCode} {a b c : Nat}

theorem byte_of_reg (hs : s.Inv) {r : Nat} (hr : r < s.cur.regs.max) : r < 256 := by
  have := hs.cur.regs.max
  omega

theorem fits_unit (hop : op.operands = .unit) {o : Origin} (ha : a < 256) (hb : b < 256)
    (hc : c < 256) : Fits s ⟨op, a, b, c⟩ o where
  emitted := by simp [hop]
  bytes := ⟨ha, hb, hc⟩
  regs := by simp [Instruction.regs, hop]
  consts := by simp [Instruction.consts, hop]
  functions := by simp [Instruction.functions, hop]

theorem fits_reg (hs : s.Inv) (hop : op.operands = .reg) {o : Origin} (ha : a < s.cur.regs.max)
    (hb : b < 256) : Fits s ⟨op, a, b, 0⟩ o where
  emitted := by simp [hop]
  bytes := ⟨byte_of_reg hs ha, hb, by simp⟩
  regs := by simpa [Instruction.regs, hop] using ha
  consts := by simp [Instruction.consts, hop]
  functions := by simp [Instruction.functions, hop]

theorem fits_regReg (hs : s.Inv) (hop : op.operands = .regReg) (ha : a < s.cur.regs.max)
    (hb : b < s.cur.regs.max) : Fits s ⟨op, a, b, 0⟩ .plain where
  emitted := by simp [hop]
  bytes := ⟨byte_of_reg hs ha, byte_of_reg hs hb, by simp⟩
  regs := by simp [Instruction.regs, hop, ha, hb]
  consts := by simp [Instruction.consts, hop]
  functions := by simp [Instruction.functions, hop]

theorem fits_regRegReg (hs : s.Inv) (hop : op.operands = .regRegReg)
    (ha : a < s.cur.regs.max) (hb : b < s.cur.regs.max) (hc : c < s.cur.regs.max) :
    Fits s ⟨op, a, b, c⟩ .plain where
  emitted := by simp [hop]
  bytes := ⟨byte_of_reg hs ha, byte_of_reg hs hb, byte_of_reg hs hc⟩
  regs := by simp [Instruction.regs, hop, ha, hb, hc]
  consts := by simp [Instruction.consts, hop]
  functions := by simp [Instruction.functions, hop]

theorem fits_regConst (hs : s.Inv) (hop : op.operands = .regConst) (ha : a < s.cur.regs.max)
    (hb : b < 256) (hk : b < s.cur.constants.length) : Fits s ⟨op, a, b, 0⟩ .plain where
  emitted := by simp [hop]
  bytes := ⟨byte_of_reg hs ha, hb, by simp⟩
  regs := by simp [Instruction.regs, hop, ha]
  consts := by simp [Instruction.consts, hop, hk]
  functions := by simp [Instruction.functions, hop]

theorem fits_regWide (hs : s.Inv) (hop : op.operands = .regWide) {o : Origin} (ho : o ≠ .hint)
    (ha : a < s.cur.regs.max) (hb : b < 256) (hc : c < 256)
    (hk : 256 * b + c < s.cur.constants.length) : Fits s ⟨op, a, b, c⟩ o where
  emitted := by simp [hop]
  bytes := ⟨byte_of_reg hs ha, hb, hc⟩
  regs := by simp [Instruction.regs, hop, ho, ha]
  consts := by simp [Instruction.consts, Instruction.bx, hop, hk]
  functions := by simp [Instruction.functions, hop]

theorem fits_regRegConst (hs : s.Inv) (hop : op.operands = .regRegConst)
    (ha : a < s.cur.regs.max) (hb : b < s.cur.regs.max) (hc : c < 256)
    (hk : c < s.cur.constants.length) : Fits s ⟨op, a, b, c⟩ .plain where
  emitted := by simp [hop]
  bytes := ⟨byte_of_reg hs ha, byte_of_reg hs hb, hc⟩
  regs := by simp [Instruction.regs, hop, ha, hb]
  consts := by simp [Instruction.consts, hop, hk]
  functions := by simp [Instruction.functions, hop]

theorem fits_regConstReg (hs : s.Inv) (hop : op.operands = .regConstReg)
    (ha : a < s.cur.regs.max) (hb : b < 256) (hk : b < s.cur.constants.length)
    (hc : c < s.cur.regs.max) : Fits s ⟨op, a, b, c⟩ .plain where
  emitted := by simp [hop]
  bytes := ⟨byte_of_reg hs ha, hb, byte_of_reg hs hc⟩
  regs := by simp [Instruction.regs, hop, ha, hc]
  consts := by simp [Instruction.consts, hop, hk]
  functions := by simp [Instruction.functions, hop]

theorem fits_jump (hop : op.operands = .jump) {o : Origin} (hb : b < 256) (hc : c < 256) :
    Fits s ⟨op, 0, b, c⟩ o where
  emitted := by simp [hop]
  bytes := ⟨by simp, hb, hc⟩
  regs := by simp [Instruction.regs, hop]
  consts := by simp [Instruction.consts, hop]
  functions := by simp [Instruction.functions, hop]

theorem fits_regJump (hs : s.Inv) (hop : op.operands = .regJump) (ha : a < s.cur.regs.max) :
    Fits s ⟨op, a, 0, 0⟩ .plain where
  emitted := by simp [hop]
  bytes := ⟨byte_of_reg hs ha, by simp, by simp⟩
  regs := by simp [Instruction.regs, hop, ha]
  consts := by simp [Instruction.consts, hop]
  functions := by simp [Instruction.functions, hop]

theorem fits_iterReg (hs : s.Inv) (hop : op.operands = .iterReg)
    (ha : a + 4 ≤ s.cur.regs.max) (hb : b < s.cur.regs.max) : Fits s ⟨op, a, b, 0⟩ .plain where
  emitted := by simp [hop]
  bytes := ⟨byte_of_reg hs (by omega : a < s.cur.regs.max), byte_of_reg hs hb, by simp⟩
  regs := by
    simp only [Instruction.regs, hop, List.mem_cons, List.not_mem_nil, or_false]
    rintro r (rfl | rfl | rfl | rfl | rfl) <;> omega
  consts := by simp [Instruction.consts, hop]
  functions := by simp [Instruction.functions, hop]

theorem fits_iterJump (hs : s.Inv) (hop : op.operands = .iterJump)
    (ha : a + 4 ≤ s.cur.regs.max) : Fits s ⟨op, a, 0, 0⟩ .plain where
  emitted := by simp [hop]
  bytes := ⟨byte_of_reg hs (by omega : a < s.cur.regs.max), by simp, by simp⟩
  regs := by
    simp only [Instruction.regs, hop, List.mem_cons, List.not_mem_nil, or_false]
    rintro r (rfl | rfl | rfl | rfl) <;> omega
  consts := by simp [Instruction.consts, hop]
  functions := by simp [Instruction.functions, hop]

theorem fits_capture (hs : s.Inv) (hop : op.operands = .capture) (ha : a < s.cur.regs.max)
    (hb : b < 256) : Fits s ⟨op, a, b, 0⟩ .plain where
  emitted := by simp [hop]
  bytes := ⟨byte_of_reg hs ha, hb, by simp⟩
  regs := by simp [Instruction.regs, hop, ha]
  consts := by simp [Instruction.consts, hop]
  functions := by simp [Instruction.functions, hop]

end Fits

/-! ## Jumps -/

/-- A jump, to the start of the code as long as it has no target. -/
theorem emitJumpAs_keeps {o : Origin} {op : OpCode} {a : Nat} (ho : o = .plain ∨ o = .leave)
    (hop : op.isJump) (hw : s.Inv → Fits s ⟨op, a, 0, 0⟩ o) :
    Keeps (emitAs o op a 0 0) s fun i s' => s'.cur.layout.IsJump i := by
  refine Keeps.intro fun hs => ?_
  refine (emitAs_keeps ?_ hw (fun _ => hs.cur.layout.start) (hintsFit_of_ordinary ho ?_)).mono
    fun i s' _ _ h => h.2 hop
  · rcases ho with rfl | rfl <;> nofun
  · intro h
    simp only [List.mem_cons, List.not_mem_nil, or_false] at h
    rcases h with h | h | h | h <;> rw [show op = _ from h] at hop <;> cases hop

theorem emitJump_keeps {op : OpCode} {a : Nat} (hop : op.isJump)
    (hw : s.Inv → Fits s ⟨op, a, 0, 0⟩ .plain) :
    Keeps (emitJump op a) s fun i s' => s'.cur.layout.IsJump i :=
  emitJumpAs_keeps (.inl rfl) hop hw

theorem setTarget_keeps {i hi lo : Nat} (hj : s.cur.layout.IsJump i) (hhi : hi < 256)
    (hlo : lo < 256) (ht : s.cur.layout.Boundary (256 * hi + lo)) :
    Keeps (setTarget i hi lo) s fun _ _ => True := by
  refine Keeps.modify (fun hs => ⟨⟨hs.cur.setTarget hj hhi hlo ht, hs.parents⟩, ?_,
    Step.parents_refl _⟩) trivial
  show s.cur.layout.Grows (s.cur.setTarget i hi lo).layout
  rw [FunctionCompiler.layout_setTarget]
  exact Layout.setTarget_grows

theorem patchJump_keeps {i t : Nat} (hj : s.cur.layout.IsJump i)
    (ht : s.cur.layout.Boundary t) : Keeps (patchJump i t) s fun _ _ => True := by
  unfold patchJump
  refine Keeps.ite (fun _ => Keeps.throw) fun _ => ?_
  refine Keeps.bind (hi8_keeps t) ?_
  rintro hi s₁ - - ⟨rfl, rfl, hhi⟩
  refine Keeps.bind (lo8_keeps t) ?_
  rintro lo s₂ - - ⟨rfl, rfl, hlo⟩
  refine setTarget_keeps hj hhi hlo ?_
  rw [Nat.div_add_mod]
  exact ht

theorem patchHere_keeps {i : Nat} (hj : s.cur.layout.IsJump i) :
    Keeps (patchHere i) s fun _ _ => True := by
  refine Keeps.bind currentIp_keeps ?_
  rintro t s₁ - - ⟨rfl, ht⟩
  exact patchJump_keeps hj ht

theorem patchAll_keeps {js : List Nat} {t : Nat} (hj : ∀ i ∈ js, s.cur.layout.IsJump i)
    (ht : s.cur.layout.Boundary t) : Keeps (patchAll js t) s fun _ _ => True :=
  Keeps.forEach fun i hi s' h => patchJump_keeps (h.cur.jump i (hj i hi)) (h.cur.boundary t ht)

theorem emitJumpTo_keeps {o : Origin} {t : Nat} (ho : o = .plain ∨ o = .leave)
    (ht : s.cur.layout.Boundary t) : Keeps (emitJumpTo o t) s fun _ _ => True := by
  unfold emitJumpTo
  refine Keeps.bind (hi8_keeps t) ?_
  rintro hi s₁ - - ⟨rfl, rfl, hhi⟩
  refine Keeps.bind (lo8_keeps t) ?_
  rintro lo s₂ - - ⟨rfl, rfl, hlo⟩
  refine Keeps.bind (emitAs_keeps ?_ (fun _ => fits_jump rfl hhi hlo) (fun _ => ?_)
    (hintsFit_of_ordinary ho (by simp))) fun _ _ _ _ _ => Keeps.pure trivial
  · rcases ho with rfl | rfl <;> nofun
  · rw [Nat.div_add_mod]
    exact ht

/-! ## Constants -/

section Constants

variable [DoubleOps]

theorem eq_string {v : Value} {name : String} (h : v.eq (.string name)) : v = .string name := by
  cases v with
  | string t => exact congrArg Value.string (of_decide_eq_true h)
  | _ => cases (show false = true from h)

/-- The pool of constants has grown to `ks`, and nothing else has changed. -/
def WithConstants (s s' : CompilerState) (ks : List Value) : Prop :=
  s' = { s with cur := { s.cur with constants := ks } } ∧ s.cur.constants <+: ks

/-- `add_const` gives the index of a constant that is equal to `v`. -/
theorem addConst_keeps (v : Value) :
    Keeps (addConst v) s fun i s' => i < 65536 ∧
      ∃ ks k, WithConstants s s' ks ∧ ks[i]? = some k ∧ (k = v ∨ k.eq v) := by
  refine Keeps.gets_bind ?_
  cases hfind : s.cur.constants.findIdx? (·.eq v) with
  | some i =>
    refine (u16_keeps i _).mono ?_
    rintro r s' - - ⟨rfl, rfl, hlt⟩
    obtain ⟨hi, heq, -⟩ := List.findIdx?_eq_some_iff_getElem.mp hfind
    exact ⟨hlt, _, _, ⟨rfl, List.prefix_refl _⟩, List.getElem?_eq_getElem hi, .inr heq⟩
  | none =>
    refine Keeps.ite (fun _ => Keeps.throw_bind) fun _ => ?_
    have hks : s.cur.constants <+: s.cur.constants ++ [v] := List.prefix_append _ _
    have hgrow : Keeps (modifyCur fun fc => { fc with constants := fc.constants ++ [v] }) s
        fun _ s' => WithConstants s s' (s.cur.constants ++ [v]) := by
      refine Keeps.modify (fun hs => step_of_wider hs (hs.cur.withConstants hks) ?_) ⟨rfl, hks⟩
      exact ⟨rfl, rfl, Nat.le_refl _, hks, List.prefix_refl _⟩
    refine Keeps.bind hgrow fun _ s₁ _ _ hs₁ => (u16_keeps _ _).mono ?_
    rintro r s' - - ⟨rfl, rfl, hlt⟩
    exact ⟨hlt, _, v, hs₁, List.getElem?_concat_length, .inl rfl⟩

theorem addString_keeps (name : String) :
    Keeps (addConst (.string name)) s fun i s' => i < 65536 ∧
      ∃ ks, WithConstants s s' ks ∧ ks[i]? = some (.string name) := by
  refine (addConst_keeps _).mono ?_
  rintro i s' - - ⟨hlt, ks, k, hks, hi, hk⟩
  refine ⟨hlt, ks, hks, ?_⟩
  rcases hk with rfl | hk
  · exact hi
  · rw [hi, eq_string hk]

omit [DoubleOps] in
theorem WithConstants.lt {s' : CompilerState} {ks : List Value} {i : Nat} {k : Value}
    (h : WithConstants s s' ks) (hi : ks[i]? = some k) : i < s'.cur.constants.length := by
  rw [h.1]
  exact (List.getElem?_eq_some_iff.mp hi).1

/-- The index of a constant. -/
theorem addIndex_keeps (v : Value) :
    Keeps (addConst v) s fun i s' => i < 65536 ∧ i < s'.cur.constants.length := by
  refine (addConst_keeps v).mono ?_
  rintro i s' - - ⟨hlt, ks, k, hks, hi, -⟩
  exact ⟨hlt, hks.lt hi⟩

/-- The two bytes name a constant with the text `name`. -/
def NameAt (s : CompilerState) (name : String) (x : Nat × Nat) : Prop :=
  x.1 < 256 ∧ x.2 < 256 ∧ s.cur.constants[256 * x.1 + x.2]? = some (.string name)

omit [DoubleOps] in
theorem NameAt.lt {name : String} {x : Nat × Nat} (h : NameAt s name x) :
    256 * x.1 + x.2 < s.cur.constants.length :=
  (List.getElem?_eq_some_iff.mp h.2.2).1

omit [DoubleOps] in
theorem NameAt.step {s' : CompilerState} {name : String} {x : Nat × Nat} (h : NameAt s name x)
    (hstep : s.Step s') : NameAt s' name x :=
  ⟨h.1, h.2.1, getElem?_extends hstep.cur.constants h.2.2⟩

theorem addName_keeps (name : String) :
    Keeps (addName name) s fun x s' => NameAt s' name x ∧ ∃ ks, WithConstants s s' ks := by
  refine Keeps.bind (addString_keeps name) ?_
  rintro i s₁ - - ⟨hlt, ks, hks, hi⟩
  refine Keeps.bind (hi8_keeps i) ?_
  rintro hi s₂ - - ⟨rfl, rfl, hhi⟩
  refine Keeps.bind (lo8_keeps i) ?_
  rintro lo s₃ - - ⟨rfl, rfl, hlo⟩
  refine Keeps.pure ⟨⟨hhi, hlo, ?_⟩, ks, hks⟩
  rw [Nat.div_add_mod, hks.1]
  exact hi

omit [DoubleOps] in
theorem i8Bits_lt {i : Int64} (h : -128 ≤ i.toInt ∧ i.toInt ≤ 127) : i8Bits i < 256 := by
  unfold i8Bits
  split <;> omega

theorem emitLoadConst_keeps {dest : Nat} (hd : dest < s.cur.regs.max) (v : Value) :
    Keeps (emitLoadConst dest v) s fun _ _ => True := by
  have hconst : Keeps (do
      let idx ← addConst v
      if idx < 256 then emit .loadConst dest idx
      else emit .loadConstW dest (← hi8 idx) (← lo8 idx)) s fun _ _ => True := by
    refine Keeps.bind (addIndex_keeps v) ?_
    rintro i s₁ - hmax ⟨-, hi₁⟩
    refine Keeps.ite (fun h => ?_) fun h => ?_
    · exact emit_keeps rfl fun hs => fits_regConst hs rfl (by omega) h hi₁
    · refine Keeps.bind (hi8_keeps i) ?_
      rintro hi s₂ - - ⟨rfl, rfl, hhi⟩
      refine Keeps.bind (lo8_keeps i) ?_
      rintro lo s₃ - - ⟨rfl, rfl, hlo⟩
      refine emit_keeps rfl fun hs => fits_regWide hs rfl (by simp) (by omega) hhi hlo ?_
      rw [Nat.div_add_mod]
      exact hi₁
  unfold emitLoadConst
  split
  · exact emit_keeps rfl fun hs => fits_reg hs rfl hd (by simp)
  · rename_i b
    cases b
    · exact emit_keeps rfl fun hs => fits_reg hs rfl hd (by simp)
    · exact emit_keeps rfl fun hs => fits_reg hs rfl hd (by simp)
  · split
    · rename_i i
      refine Keeps.ite (fun h => ?_) fun _ => hconst
      exact Keeps.bind (emit_keeps rfl fun hs => fits_reg hs rfl hd (i8Bits_lt h))
        fun _ _ _ _ _ => Keeps.pure trivial
    · exact hconst

omit [DoubleOps] in
/-- `LOAD_GLOBAL`, `STORE_GLOBAL` and `CHECK_DEFINED` with the name of a variable. -/
theorem emitName_keeps {op : OpCode} {name : String} {x : Nat × Nat} {r : Nat}
    (hop : ordinary op) (hwide : op.operands = .regWide) (hr : r < s.cur.regs.max)
    (hx : NameAt s name x) : Keeps (emit op r x.1 x.2) s fun _ _ => True :=
  emit_keeps hop fun hs => fits_regWide hs hwide (by simp) hr hx.1 hx.2.1 hx.lt

theorem emitLoadGlobal_keeps {r : Nat} (hr : r < s.cur.regs.max) (name : String) :
    Keeps (emitLoadGlobal r name) s fun _ _ => True := by
  refine Keeps.bind (addName_keeps name) ?_
  rintro x s₁ - hmax ⟨hx, -⟩
  exact emitName_keeps rfl rfl (by omega) hx

end Constants

/-! ## Scopes and names -/

theorem pushScope_keeps : Keeps pushScope s fun _ _ => True :=
  modifyCur_keeps (fun hg => { hg with }) rfl trivial

theorem dropLocals_ok {ra : RegisterAllocator} {depth : Nat} {locals : List LocalVar}
    (hra : ra.Ok) (hlocals : ∀ v ∈ locals, v.reg < ra.max) :
    (dropLocals depth locals ra).2.Ok ∧ (dropLocals depth locals ra).2.max = ra.max ∧
      ∀ v ∈ (dropLocals depth locals ra).1, v ∈ locals := by
  induction locals generalizing ra with
  | nil => exact ⟨hra, rfl, nofun⟩
  | cons v locals ih =>
    rw [List.forall_mem_cons] at hlocals
    rw [dropLocals]
    split
    · have hok := RegisterAllocator.freeLocal_ok hra hlocals.1
      have hmax : (ra.freeLocal v.reg).max = ra.max := RegisterAllocator.freeLocal_max
      obtain ⟨hok', hmax', hmem⟩ := ih hok (by rw [hmax]; exact hlocals.2)
      exact ⟨hok', hmax'.trans hmax, fun w hw => List.mem_cons_of_mem _ (hmem w hw)⟩
    · exact ⟨hra, rfl, fun w hw => hw⟩

theorem popScope_keeps : Keeps popScope s fun _ _ => True := by
  refine Keeps.intro fun hs => ?_
  obtain ⟨hok, hmax, hmem⟩ := @dropLocals_ok _ s.cur.scopeDepth _ hs.cur.regs hs.cur.locals
  refine modifyCur_keeps (fun hg => ?_) ?_ trivial
  · have hregs := hg.withRegs hok (Nat.le_of_eq hmax.symm)
    exact { hregs with locals := fun v hv => hregs.locals v (hmem v hv) }
  · simp only [FunctionCompiler.layout, hmax]

theorem pushLocal_keeps {name : String} {reg : Nat} (hr : reg < s.cur.regs.max) :
    Keeps (pushLocal name reg) s fun _ _ => True :=
  modifyCur_keeps (fun hg => { hg with locals := List.forall_mem_cons.mpr ⟨hr, hg.locals⟩ })
    rfl trivial

theorem allocLocal_keeps :
    Keeps (withRegs RegisterAllocator.allocLocal) s fun r s' => r < s'.cur.regs.max :=
  withRegs_keeps fun hs _ _ h =>
    have hra := RegisterAllocator.allocLocal_ok hs.cur.regs h
    ⟨hra.1, hra.2.2, hra.2.1⟩

theorem declareLocal_keeps (name : String) :
    Keeps (declareLocal name) s fun r s' => r < s'.cur.regs.max := by
  refine Keeps.gets_bind (Keeps.ite (fun _ => Keeps.throw_bind) fun _ => ?_)
  refine Keeps.bind allocLocal_keeps fun r s₁ _ _ hr => ?_
  refine Keeps.bind (pushLocal_keeps hr) fun _ s₂ _ hmax _ => ?_
  refine Keeps.ite (fun _ => ?_) fun _ => Keeps.pure (by omega)
  refine Keeps.bind (modifyCur_keeps (fun hg => { hg with }) rfl trivial)
    fun _ s₃ _ hmax' (_ : True) => Keeps.pure (by omega)

/-- A place that a name can have. -/
def LocOk (s : CompilerState) : VarLoc → Prop
  | .register r => r < s.cur.regs.max
  | .capture i => i < 256
  | .global => True

theorem LocOk.mono {s' : CompilerState} (hmax : s.cur.regs.max ≤ s'.cur.regs.max) {loc : VarLoc}
    (h : LocOk s loc) : LocOk s' loc := by
  cases loc with
  | register r => exact Nat.lt_of_lt_of_le h hmax
  | capture i => exact h
  | global => trivial

theorem lookupVar_ok (hg : s.cur.Good) {name : String} {loc : VarLoc}
    (h : s.cur.lookupVar name = some loc) : LocOk s loc := by
  unfold FunctionCompiler.lookupVar at h
  split at h
  · rename_i l hfind
    cases h
    exact hg.locals l (List.mem_of_find?_eq_some hfind)
  · obtain ⟨i, hfind, rfl⟩ := Option.map_eq_some_iff.mp h
    have hlt := (List.findIdx?_eq_some_iff_getElem.mp hfind).1
    have hlen := hg.captures
    show i < 256
    omega

theorem resolveForWrite_keeps (name : String) :
    Keeps (resolveForWrite name) s fun loc s' => s' = s ∧ LocOk s loc := by
  refine Keeps.intro fun hs => Keeps.gets_bind (Keeps.pure ⟨rfl, ?_⟩)
  cases h : s.cur.lookupVar name with
  | none => trivial
  | some loc => exact lookupVar_ok hs.cur h

theorem resolve_annotated (name : String) : ∀ fcs : List FunctionCompiler,
    List.Forall₂ FunctionCompiler.Annotated fcs (FunctionCompiler.resolve name fcs).2
  | [] => .nil
  | fc :: parents => by
    have ih := resolve_annotated name parents
    unfold FunctionCompiler.resolve
    split
    · exact Step.parents_refl _
    · split
      · rename_i heq
        rw [heq] at ih
        exact .cons (.refl fc) ih
      · rename_i heq
        rw [heq] at ih
        exact .cons (.refl fc) ih
      · rename_i heq
        rw [heq] at ih
        split
        · exact .cons (.refl fc) ih
        · refine .cons ⟨_, _, _, fun _ => ?_, rfl⟩ ih
          simp only [List.length_append, List.length_singleton]
          omega

theorem resolve_loc (hg : s.cur.Good) {name : String} {loc : VarLoc}
    (h : (FunctionCompiler.resolve name (s.cur :: s.parents)).1 = .ok loc) : LocOk s loc := by
  unfold FunctionCompiler.resolve at h
  split at h
  · rename_i loc' hlookup
    cases h
    exact lookupVar_ok hg hlookup
  · split at h
    · cases h
    · cases h
      trivial
    · split at h
      · cases h
      · cases h
        show s.cur.captures.length < 256
        omega

/-- The functions learn something about captures and calls. -/
theorem step_annotated (hs : s.Inv) {fc : FunctionCompiler} {parents : List FunctionCompiler}
    (hcur : s.cur.Annotated fc) (hparents : List.Forall₂ FunctionCompiler.Annotated s.parents parents) :
    ({ s with cur := fc, parents := parents } : CompilerState).Inv ∧
      s.Step { s with cur := fc, parents := parents } := by
  refine ⟨⟨hcur.good hs.cur, Step.parents_good hparents hs.parents⟩, ?_, hparents⟩
  show s.cur.layout.Grows fc.layout
  rw [hcur.layout]
  exact .refl _

theorem resolveVar_keeps (name : String) :
    Keeps (resolveVar name) s fun loc s' => LocOk s' loc := by
  intro hs
  have hchain := resolve_annotated name (s.cur :: s.parents)
  have hloc : ∀ loc, (FunctionCompiler.resolve name (s.cur :: s.parents)).1 = .ok loc →
      LocOk s loc := fun _ h => resolve_loc hs.cur h
  unfold Ensures resolveVar
  generalize FunctionCompiler.resolve name (s.cur :: s.parents) = x at hchain hloc
  obtain ⟨result, chain⟩ := x
  cases hchain with
  | @cons _ fc _ rest hcur hparents =>
    have h := step_annotated hs hcur hparents
    cases result with
    | error e => exact h
    | ok loc => exact ⟨h.2, h.1, (hloc loc rfl).mono h.2.max_le⟩

/-! ## Locals -/

section Locals

variable [DoubleOps] {slot : Nat}

theorem emitReadLocal_keeps {dest : Nat} (hd : dest < s.cur.regs.max)
    (hslot : slot < s.cur.regs.max) : Keeps (emitReadLocal dest slot) s fun _ _ => True := by
  refine Keeps.gets_bind (Keeps.ite (fun _ => ?_) fun _ => ?_)
  · refine Keeps.bind allocTemp_keeps fun z s₁ _ _ hz => ?_
    refine Keeps.bind (emitLoadConst_keeps hz _) fun _ s₂ _ _ _ => ?_
    refine Keeps.bind (emit_keeps rfl fun hs =>
      fits_regRegReg hs rfl (by omega) (by omega) (by omega)) fun _ s₃ _ _ _ => ?_
    exact freeTemp_keeps (by omega)
  · exact emit_keeps rfl fun hs => fits_regReg hs rfl hd hslot

theorem emitWriteLocal_keeps {src : Nat} (hslot : slot < s.cur.regs.max)
    (hsrc : src < s.cur.regs.max) : Keeps (emitWriteLocal slot src) s fun _ _ => True := by
  refine Keeps.gets_bind (Keeps.ite (fun _ => ?_) fun _ => ?_)
  · refine Keeps.bind allocTemp_keeps fun z s₁ _ _ hz => ?_
    refine Keeps.bind (emitLoadConst_keeps hz _) fun _ s₂ _ _ _ => ?_
    refine Keeps.bind (emit_keeps rfl fun hs =>
      fits_regRegReg hs rfl (by omega) (by omega) (by omega)) fun _ s₃ _ _ _ => ?_
    exact freeTemp_keeps (by omega)
  · exact emit_keeps rfl fun hs => fits_regReg hs rfl hslot hsrc

theorem emitReadCapture_keeps {dest i : Nat} (hd : dest < s.cur.regs.max) (hi : i < 256) :
    Keeps (emitReadCapture dest i) s fun _ _ => True := by
  refine Keeps.gets_bind (Keeps.ite (fun _ => ?_) fun _ => ?_)
  · refine Keeps.bind allocTemp_keeps fun c s₁ _ _ hc => ?_
    refine Keeps.bind (emit_keeps rfl fun hs => fits_capture hs rfl hc hi) fun _ s₂ _ _ _ => ?_
    refine Keeps.bind allocTemp_keeps fun z s₃ _ _ hz => ?_
    refine Keeps.bind (emitLoadConst_keeps hz _) fun _ s₄ _ _ _ => ?_
    refine Keeps.bind (emit_keeps rfl fun hs =>
      fits_regRegReg hs rfl (by omega) (by omega) (by omega)) fun _ s₅ _ _ _ => ?_
    refine Keeps.bind (freeTemp_keeps (by omega)) fun _ s₆ _ _ _ => ?_
    exact freeTemp_keeps (by omega)
  · exact emit_keeps rfl fun hs => fits_capture hs rfl hd hi

omit [DoubleOps] in
theorem emitNewCell_keeps {src : Nat} (hslot : slot < s.cur.regs.max)
    (hsrc : src < s.cur.regs.max) : Keeps (emitNewCell slot src) s fun _ _ => True := by
  refine Keeps.bind (emit_keeps rfl fun hs => fits_reg hs rfl hslot (by omega))
    fun _ s₁ _ _ _ => ?_
  exact emit_keeps rfl fun hs => fits_regReg hs rfl (by omega) (by omega)

end Locals

/-! ## Nested compilers -/

/-- Inside a nested function the invariant is that of the functions around it as well. -/
theorem withInner_keeps {m : Compile α} {fc : FunctionCompiler} {Q : α → CompilerState → Prop}
    (hfc : fc.Good) (hm : Keeps m { s with cur := fc, parents := s.cur :: s.parents } Q) :
    Keeps (withInner fc m) s fun x _ => ∃ s₁, s₁.Inv ∧ s₁.cur = x.2 ∧ Q x.1 s₁ := by
  intro hs
  have hinner := hm ⟨hfc, List.forall_mem_cons.mpr ⟨hs.cur, hs.parents⟩⟩
  have hback : ∀ {s₁ : CompilerState},
      ({ s with cur := fc, parents := s.cur :: s.parents } : CompilerState).Step s₁ →
      moves.rel s { s₁ with cur := s₁.parents.headD s.cur, parents := s₁.parents.tail } ∧
        ({ s₁ with cur := s₁.parents.headD s.cur, parents := s₁.parents.tail } :
          CompilerState).Inv := by
    intro s₁ hstep
    cases s₁ with
    | mk cur₁ parents₁ =>
      cases hstep.parents with
      | cons hcur hparents =>
        have h := step_annotated hs hcur hparents
        exact ⟨⟨h.2.cur, h.2.parents⟩, h.1.cur, h.1.parents⟩
  unfold Ensures at hinner ⊢
  unfold withInner
  cases hr : m { s with cur := fc, parents := s.cur :: s.parents } with
  | ok a s₁ =>
    rw [hr] at hinner
    have h := hback hinner.1
    exact ⟨h.1, h.2, s₁, hinner.2.1, rfl, hinner.2.2⟩
  | error e s₁ =>
    rw [hr] at hinner
    have h := hback hinner.2
    exact ⟨h.2, h.1⟩
  | timeout => trivial

/-- A compiler in the place of the current one. -/
theorem withDiscovery_keeps {m : Compile α} {fc : FunctionCompiler}
    {Q : α → CompilerState → Prop} (hfc : s.Inv → fc.Good) (hm : Keeps m { s with cur := fc } Q) :
    Keeps (withDiscovery fc m) s fun _ _ => True := by
  intro hs
  have hinner := hm ⟨hfc hs, hs.parents⟩
  unfold Ensures at hinner ⊢
  unfold withDiscovery
  cases hr : m { s with cur := fc } with
  | ok a s₁ =>
    rw [hr] at hinner
    exact ⟨⟨.refl _, hinner.1.parents⟩, ⟨hs.cur, hinner.2.1.parents⟩, trivial⟩
  | error e s₁ =>
    rw [hr] at hinner
    exact ⟨⟨hs.cur, hinner.1.parents⟩, .refl _, hinner.2.parents⟩
  | timeout => trivial

end Compile

end Look
