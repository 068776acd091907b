/-
The compiled code of the logical operators.

The code of an operator is the code of its operands with jumps over the ones that are not needed.
Both branches leave their value in the register of the result, and the jumps are patched when the
address behind is known.  `logicTree_follows` says that the machine follows the first reading of
`Look.Engines.Logical`, and `logic_same` adds where that is what the interpreter does.
-/
import Look.Arith.Ieee
import Look.Compiler.Destination
import Look.Engines.Logical
import Look.Engines.Switch

namespace Look

open Exec Compile

section Follow

variable [DoubleOps]

/-! ## Contracts -/

/-- The values of the engines are the same for the logical operators. -/
structure Correspondence.Logical (K : Correspondence) : Prop where
  truth : ∀ {fc c σ v v'}, K.state fc c σ → K.value v' v → v'.isTruthy c.world.arrays = v.holds σ
  null : ∀ {v v'}, K.value v' v → (v' = .none ↔ v = .none)
  bool : ∀ b, K.value (.bool b) (.bool b)

/-- The temporaries that were live are as they were, except the destination. -/
def Correspondence.KeepsOthers (K : Correspondence) (dest : Option Nat) (fc : FunctionCompiler)
    (c c' : Config) : Prop :=
  ∀ q, fc.regs.Live q → fc.Homeless q → dest ≠ some q → K.site.reg c' q = K.site.reg c q

variable (K : Correspondence) (env : SourceEnv) (rec : Rec)

/-- The machine is behind the code, with a value that corresponds in register `r`. -/
def Delivers (dest : Option Nat) (fc fc' : FunctionCompiler) (r : Nat) (c : Config) (v : Value)
    (c' : Config) (σ : InterpState) : Prop :=
  K.Here fc'.code.length fc' c' σ ∧ (∃ v', K.site.reg c' r = some v' ∧ K.value v' v) ∧
    K.KeepsOthers dest fc c c'

/-- The code from `fc` to `fc'` follows `m`, with its result in register `r`. -/
def Follows (m : Interp Value) (dest : Option Nat) (fc fc' : FunctionCompiler) (r : Nat) : Prop :=
  K.site.Carries fc'.code fc.code.length fc'.code.length → K.site.Covers fc' →
    ∀ c σ, K.Here fc.code.length fc c σ →
      K.site.Sim K.raise c (Delivers K dest fc fc' r c) (m σ)

/-- Where the compiler is in `s`, the code of the expression follows `m`. -/
def FollowsAt (m : Interp Value) (e : Expr) (s : CompilerState) : Prop :=
  ∀ dest r s', s.cur.Tidy → DestLive dest s.cur → rec.expr e dest s = .ok r s' →
    ExprPost env e dest s s' r ∧ Follows K m dest s.cur s'.cur r

variable {K env rec}

theorem ExprOk.follows {irec : InterpRec} {e : Expr} (h : ExprOk K env rec irec e)
    (s : CompilerState) : FollowsAt K env rec (irec.eval e) e s := by
  intro dest r s' ht hd hc
  obtain ⟨hpost, hruns⟩ := h s dest r s' ht hd hc
  refine ⟨hpost, fun hcode hcov c σ hh => (hruns hcode hcov c σ hh).mono ?_ fun _ _ _ h => h⟩
  rintro v c' σ' ⟨hh', hv, hkeep⟩
  refine ⟨hh', hv, fun q hq hn hne => hkeep q hq hne fun n _ hl => ?_⟩
  obtain ⟨l, hmem, hreg⟩ := FunctionCompiler.mem_of_lookupVar hl
  exact hn l hmem hreg

/-! ## The steps of the compiler -/

section Steps

variable {s s' s₁ s₂ : CompilerState} {e : Expr} {m : Interp Value} {dest : Option Nat} {r : Nat}

/-- An expression with a register for its result needs no `MOVE`. -/
theorem into_ok (h : FollowsAt K env rec m e s) (hlands : Lands r (rec.expr e (some r)))
    (ht : s.cur.Tidy) (hr : s.cur.regs.Live r) (hn : s.cur.Homeless r)
    (hc : compileInto rec e r s = .ok () s') :
    ExprPost env e (some r) s s' r ∧ Follows K m (some r) s.cur s'.cur r := by
  obtain ⟨r', s₁, hexpr, hc⟩ := bind_eq_ok.mp hc
  obtain rfl : r' = r := hlands _ _ _ hexpr
  rw [if_neg (not_not_intro rfl)] at hc
  cases hc
  refine h (some r') r' s' ht ?_ hexpr
  rintro q ⟨⟩
  exact ⟨hr, hn⟩

omit [DoubleOps] in
theorem DestPost.ne (h : DestPost dest s s₁ r) {q : Nat} (hq : s.cur.regs.Live q)
    (hne : dest ≠ some q) : q ≠ r := by
  rintro rfl
  cases dest with
  | none => exact h.fresh rfl hq
  | some d => exact hne (congrArg some (h.given d rfl).symm)

omit [DoubleOps] in
theorem getElem?_patched (j t i : Nat) : (patched s [j] t).cur.code[i]? =
    if i = j then s.cur.code[i]?.map (Instruction.withTarget · t) else s.cur.code[i]? := by
  have h := getElem?_patchCode [j] t i s.cur.code
  rwa [if_congr List.mem_singleton rfl rfl] at h

omit [DoubleOps] in
theorem length_patched (j t : Nat) : (patched s [j] t).cur.code.length = s.cur.code.length :=
  length_patchCode _ _ _

omit [DoubleOps] in
theorem length_push (w : Instruction) (o : Origin) :
    (s.push w o).cur.code.length = s.cur.code.length + 1 := by
  simp [CompilerState.push, FunctionCompiler.pushUnit]

omit [DoubleOps] in
theorem getElem?_push (w : Instruction) (o : Origin) :
    (s.push w o).cur.code[s.cur.code.length]? = some w := by
  simp [CompilerState.push, FunctionCompiler.pushUnit]

omit [DoubleOps] in
/-- A jump that stands behind `s` gets its target. -/
theorem StmtPost.patch (h : StmtPost s s₁) {j : Nat} (hj : s.cur.code.length ≤ j) (t : Nat) :
    StmtPost s (patched s₁ [j] t) where
  toProgress := h.toProgress.trans (patched_progress h.tidy [j] t)
  code := by
    rw [List.prefix_iff_getElem?]
    intro i hi
    rw [getElem?_patched, if_neg (by omega)]
    exact getElem?_extends h.code (List.getElem?_eq_getElem hi)

omit [DoubleOps] in
theorem patchHere_ok {j : Nat} (h : patchHere j s = .ok () s') :
    s' = patched s [j] s.cur.code.length := by
  obtain ⟨ip, s₁, hip, h⟩ := bind_eq_ok.mp h
  cases hip
  exact patchJump_ok h

end Steps

/-! ## The registers of the others -/

section Others

variable {s s₁ : CompilerState} {d dest : Option Nat} {q : Nat} {c c₁ c₂ : Config}

theorem Correspondence.KeepsOthers.trans {fc : FunctionCompiler}
    (h : K.KeepsOthers dest fc c c₁) (h' : K.KeepsOthers dest fc c₁ c₂) :
    K.KeepsOthers dest fc c c₂ :=
  fun p hp hn hne => (h' p hp hn hne).trans (h p hp hn hne)

/-- Without a destination every register is kept. -/
theorem Correspondence.KeepsOthers.of_none {fc : FunctionCompiler}
    (h : K.KeepsOthers none fc c c₁) : K.KeepsOthers dest fc c c₁ :=
  fun p hp hn _ => h p hp hn nofun

/-- What was live before is still live when the register of the result has been found. -/
theorem Correspondence.KeepsOthers.before (h : K.KeepsOthers (some q) s₁.cur c c₁)
    (hpost : StmtPost s s₁) (hne : ∀ p, s.cur.regs.Live p → dest ≠ some p → p ≠ q) :
    K.KeepsOthers dest s.cur c c₁ :=
  fun p hp hn hd => h p (hpost.live p hp) (hpost.homeless p hp hn) fun hq =>
    hne p hp hd (Option.some.inj hq).symm

/-- Patching a jump of the code behind which the machine is. -/
theorem Delivers.patched {fc : FunctionCompiler} {c₀ : Config} {v : Value} {σ : InterpState}
    (h : Delivers K d fc s.cur q c v c₁ σ) (j t : Nat) {fc₀ : FunctionCompiler}
    (hkeep : K.KeepsOthers dest fc₀ c₀ c₁) :
    Delivers K dest fc₀ (patched s [j] t).cur q c₀ v c₁ σ := by
  obtain ⟨hh, hv, -⟩ := h
  refine ⟨?_, hv, hkeep⟩
  rw [length_patched]
  exact ⟨hh.1, K.names (patched_emits s [j] t).names hh.2⟩

end Others

/-! ## `&&` and `||` -/

/-- The interpreter's test of a value. -/
theorem truthy_apply (v : Value) (σ : InterpState) : Interp.truthy v σ = .ok (v.holds σ) σ := rfl

section Logical

variable {s s' : CompilerState} {l r : Expr} {ml mr : Interp Value} {conj : Bool}
  {dest : Option Nat} {q : Nat}

omit [DoubleOps] in
/-- What compiling `&&` and `||` does. -/
theorem compileLogical_cases
    (hc : compileLogical rec l (LogicTree.logicalOp conj) r dest s = .ok q s') :
    ∃ op s₁ s₂ s₄, (op = .jumpIfTrue ∨ op = .jumpIfFalse) ∧ decide (op = .jumpIfTrue) = !conj ∧
      ensureDest dest s = .ok q s₁ ∧ compileInto rec l q s₁ = .ok () s₂ ∧
      compileInto rec r q (s₂.push ⟨op, q, 0, 0⟩ .plain) = .ok () s₄ ∧
      s' = patched s₄ [s₂.cur.code.length] s₄.cur.code.length := by
  obtain ⟨q', s₁, hdest, hc⟩ := bind_eq_ok.mp hc
  obtain ⟨u, s₂, hl, hc⟩ := bind_eq_ok.mp hc
  obtain ⟨j, s₃, hjump, hc⟩ := bind_eq_ok.mp hc
  obtain ⟨u', s₄, hr, hc⟩ := bind_eq_ok.mp hc
  obtain ⟨u'', s₅, hpatch, hc⟩ := bind_eq_ok.mp hc
  cases hc
  cases hjump
  refine ⟨_, s₁, s₂, s₄, ?_, ?_, hdest, hl, hr, patchHere_ok hpatch⟩
  · cases conj
    · exact .inl rfl
    · exact .inr rfl
  · cases conj <;> rfl

theorem logical_follows (hK : K.Logical) (hl : ∀ s₁, Progress s s₁ → FollowsAt K env rec ml l s₁)
    (hr : ∀ s₁, Progress s s₁ → FollowsAt K env rec mr r s₁)
    (hlands : ∀ d e, Lands d (rec.expr e (some d)))
    (hdecl : ∀ n, Assigns env n r → s.declares n = false) (ht : s.cur.Tidy)
    (hd : DestLive dest s.cur)
    (hc : compileLogical rec l (LogicTree.logicalOp conj) r dest s = .ok q s') :
    ExprPost env (.binary l (LogicTree.logicalOp conj) r) dest s s' q ∧
      Follows K (do
        let v ← ml
        if (← Interp.truthy v) = conj then mr else return v) dest s.cur s'.cur q := by
  obtain ⟨op, s₁, s₂, s₄, hop, hconj, hdest, hleft, hright, rfl⟩ := compileLogical_cases hc
  have h₁ := ensureDest_ok hdest ht hd
  obtain ⟨h₂, hruns₂⟩ := into_ok (hl s₁ h₁.post.toProgress) (hlands q l) h₁.post.tidy h₁.live
    h₁.homeless hleft
  have hs₂ := h₁.post.trans h₂.stmtPost
  have hhome₂ := h₂.homeless q h₁.live h₁.homeless
  set s₃ := s₂.push ⟨op, q, 0, 0⟩ .plain with hs₃
  have h₃ : StmtPost s₂ s₃ := push_post h₂.tidy _ _
  have hem₃ : s₂.Emits s₃ := (CompilerState.Emits.refl s₂).push _ _
  have hpost₃ := hs₂.trans h₃
  have hlive₃ := h₃.live q h₂.result
  have hhome₃ := h₃.homeless q h₂.result hhome₂
  obtain ⟨h₄, hruns₄⟩ := into_ok (hr s₃ hpost₃.toProgress) (hlands q r) h₃.tidy
    hlive₃ hhome₃ hright
  have hpost₄ := hpost₃.trans h₄.stmtPost
  have hpost₅ := hpost₄.patch hs₂.length s₄.cur.code.length
  have hlen₃ : s₃.cur.code.length = s₂.cur.code.length + 1 := length_push _ _
  have hnames : s₂.cur.SameNames s₄.cur := hem₃.names.trans
    (h₄.names fun n hn => hpost₃.settled n (hdecl n hn))
  have hem₅ := patched_emits s₄ [s₂.cur.code.length] s₄.cur.code.length
  refine ⟨{ hpost₅ with
      loops := ?_
      names := ?_
      result := h₄.result
      fresh := ?_ }, ?_⟩
  · rw [hem₅.loops, h₄.loops, hem₃.loops, h₂.loops, h₁.emits.loops]
  · intro hnone
    refine ((h₁.emits.names.trans (h₂.names fun n hn => ?_)).trans hnames).trans hem₅.names
    exact h₁.post.settled n (hnone n (.left hn))
  · intro hnone
    exact .inl ⟨h₁.fresh hnone, h₄.homeless q hlive₃ hhome₃⟩
  · intro hcode hcov c σ hh
    -- The words of the operands are those that were emitted, and the jump has its target.
    have hword : ∀ i, s.cur.code.length ≤ i → i < s₄.cur.code.length → K.site.code[i]? =
        if i = s₂.cur.code.length then
          s₄.cur.code[i]?.map (Instruction.withTarget · s₄.cur.code.length)
        else s₄.cur.code[i]? := by
      intro i hi hlt
      rw [hcode i hi (by rw [length_patched]; exact hlt), getElem?_patched]
    have hle₂ := hs₂.length
    have hle₄ := h₄.code.length_le
    have hcarries₂ : K.site.Carries s₂.cur.code s₁.cur.code.length s₂.cur.code.length := by
      intro i hi hlt
      rw [h₁.code] at hi
      rw [hword i hi (by omega), if_neg (by omega)]
      have hget := List.getElem?_eq_getElem hlt
      rw [getElem?_extends (h₃.code.trans h₄.code) hget, hget]
    have hcarries₄ : K.site.Carries s₄.cur.code s₃.cur.code.length s₄.cur.code.length := by
      intro i hi hlt
      rw [hword i (by omega) hlt, if_neg (by omega)]
    have hjump : K.site.code[s₂.cur.code.length]? =
        some (Instruction.withTarget ⟨op, q, 0, 0⟩ s₄.cur.code.length) := by
      rw [hword _ hle₂ (by omega), if_pos rfl, getElem?_extends h₄.code (getElem?_push _ _)]
      rfl
    have hcov₄ : K.site.Covers s₄.cur := hcov.of_tables (patched_progress h₄.tidy _ _).tables
    have hcov₂ : K.site.Covers s₂.cur := hcov₄.of_tables (h₃.tables.trans h₄.tables)
    have hh₁ : K.Here s₁.cur.code.length s₁.cur c σ := by
      rw [h₁.code]
      exact ⟨hh.1, K.names h₁.emits.names hh.2⟩
    refine Site.Sim.bind (hruns₂ hcarries₂ hcov₂ c σ hh₁) ?_
    rintro v c₂ σ₂ ⟨hh₂, ⟨v', hreg, hval⟩, hkeep₂⟩
    have hstep := hh₂.1.step_jumpIf hjump hreg hop
    rw [hK.truth hh₂.2 hval, Instruction.withTarget_op, Instruction.withTarget_bx, hconj] at hstep
    have hne : ∀ p, s.cur.regs.Live p → dest ≠ some p → p ≠ q := fun _ => h₁.ne
    have hkeep₂' : K.KeepsOthers dest s.cur c c₂ := hkeep₂.before h₁.post hne
    rw [bind_apply, truthy_apply]
    dsimp only
    by_cases hv : v.holds σ₂ = conj
    · -- The left operand does not decide.
      rw [if_neg (by rw [hv]; cases conj <;> exact Bool.noConfusion)] at hstep
      rw [if_pos hv]
      have hh₃ : K.Here s₃.cur.code.length s₃.cur (K.site.jump (s₂.cur.code.length + 1) c₂) σ₂ := by
        rw [hlen₃]
        exact ⟨hh₂.1.jump _, K.names hem₃.names (K.jump _ hh₂.2)⟩
      refine .step hstep ((hruns₄ hcarries₄ hcov₄ _ _ hh₃).mono ?_ fun _ _ _ h => h)
      intro w c₄ σ₄ hw
      exact hw.patched _ _ (hkeep₂'.trans (hw.2.2.before hpost₃ hne))
    · rw [if_pos (by cases conj <;> simpa using hv)] at hstep
      rw [if_neg hv]
      refine .step hstep (.pure ⟨?_, ⟨v', hreg, hval⟩, hkeep₂'⟩)
      rw [length_patched]
      exact ⟨hh₂.1.jump _, K.names (hnames.trans hem₅.names) (K.jump _ hh₂.2)⟩

end Logical

/-! ## `!` -/

section Not

variable {s s' : CompilerState} {e : Expr} {m : Interp Value} {pre : Bool} {dest : Option Nat}
  {q : Nat}

/-- The register of the result is not that of an operand which is still needed. -/
theorem ExprPost.operand_ne {s₁ s₂ : CompilerState} {r : Nat} (h : ExprPost env e none s s₁ r)
    (hd : DestPost dest s₁ s₂ q) (hs : DestLive dest s.cur) : r ≠ q := by
  rintro rfl
  cases dest with
  | none => exact hd.fresh rfl h.result
  | some d =>
    obtain rfl := hd.given d rfl
    obtain ⟨hlive, hhome⟩ := hs r rfl
    rcases h.fresh rfl with ⟨hnot, -⟩ | ⟨n, -, hn⟩
    · exact hnot hlive
    · obtain ⟨l, hl, hreg⟩ := FunctionCompiler.mem_of_lookupVar hn
      exact hhome l hl hreg

theorem ExprPost.destLive {s₁ : CompilerState} {r : Nat} (h : ExprPost env e none s s₁ r)
    (hs : DestLive dest s.cur) : DestLive dest s₁.cur := fun d hd =>
  ⟨h.live d (hs d hd).1, h.homeless d (hs d hd).1 (hs d hd).2⟩

theorem not_follows (hK : K.Logical) (h : FollowsAt K env rec m e s) (ht : s.cur.Tidy)
    (hd : DestLive dest s.cur) (hc : compileUnary rec .not e pre dest s = .ok q s') :
    ExprPost env (.unary .not e pre) dest s s' q ∧
      Follows K (do return .bool (!(← Interp.truthy (← m)))) dest s.cur s'.cur q := by
  obtain ⟨r, s₁, hexpr, hc⟩ := bind_eq_ok.mp hc
  obtain ⟨q', s₂, hdest, hc⟩ := bind_eq_ok.mp hc
  obtain ⟨h₁, hruns⟩ := h none r s₁ ht (destLive_none _) hexpr
  have h₂ := ensureDest_ok hdest h₁.tidy (h₁.destLive hd)
  have hne := h₁.operand_ne h₂ hd
  set s₃ := s₂.push ⟨.not, q', r, 0⟩ .plain with hs₃
  have hs' : q = q' ∧ s' = s₃.withRegs (s₃.cur.regs.release r) := by
    cases hc
    exact ⟨rfl, rfl⟩
  obtain ⟨rfl, rfl⟩ := hs'
  have hpost₃ := (h₁.stmtPost.trans h₂.post).push ⟨.not, q, r, 0⟩ .plain
  have hafter : StmtPost s₁ s₃ := h₂.post.push _ _
  have hpost := hpost₃.release (hafter.live r h₁.result) (h₁.disposable hafter.toProgress)
  have hem : s₁.Emits (s₃.withRegs (s₃.cur.regs.release r)) :=
    (h₂.emits.push _ _).withRegs _
  have hcode : (s₃.withRegs (s₃.cur.regs.release r)).cur.code =
      s₁.cur.code ++ [⟨.not, q, r, 0⟩] := by
    rw [← h₂.code]
    rfl
  refine ⟨{ hpost with
      loops := hem.loops.trans h₁.loops
      names := fun hn => (h₁.names fun n ha => hn n (.unary ha)).trans hem.names
      result := RegisterAllocator.Live.release h₂.live (.inl hne.symm)
      fresh := fun hnone => .inl ⟨fun hl => h₂.fresh hnone (h₁.live q hl), h₂.homeless⟩ }, ?_⟩
  intro hcarries hcov c σ hh
  have hlt : q < K.site.frame.proto.regCount :=
    hcov.lt hpost.tidy (RegisterAllocator.Live.release h₂.live (.inl hne.symm))
  have hword : K.site.code[s₁.cur.code.length]? = some ⟨.not, q, r, 0⟩ := by
    rw [hcarries _ h₁.code.length_le (by rw [hcode]; simp), hcode]
    simp
  have hcarries₁ : K.site.Carries s₁.cur.code s.cur.code.length s₁.cur.code.length := by
    intro i hi hi'
    rw [hcarries i hi (by rw [hcode, List.length_append]; omega), hcode,
      List.getElem?_append_left hi']
  have hcov₁ : K.site.Covers s₁.cur := by
    refine hcov.of_tables (hem.tables ?_)
    exact Nat.le_trans h₂.post.tables.max (Nat.le_of_eq RegisterAllocator.release_max.symm)
  refine Site.Sim.bind (hruns hcarries₁ hcov₁ c σ hh) ?_
  rintro v c₁ σ₁ ⟨hh₁, ⟨v', hreg, hval⟩, hkeep⟩
  have hstep := hh₁.1.step_unary hword rfl rfl hlt hreg rfl
  rw [hK.truth hh₁.2 hval] at hstep
  refine .step hstep (.pure ⟨⟨?_, ?_⟩, ⟨_, ?_, hK.bool _⟩, fun p hp hn hne => ?_⟩)
  · rw [hcode, List.length_append]
    exact (hh₁.1.jump _).write _ _
  · exact K.names ((h₂.emits.push _ _).withRegs _).names
      (K.write _ (fun l hl => h₂.homeless l (h₂.emits.names.locals ▸ hl)) (K.jump _ hh₁.2))
  · exact Site.reg_write_self ((hh₁.1.jump _).isSome_reg hlt)
  · rw [Site.reg_write_of_ne (h₂.ne (h₁.live p hp) hne).symm, Site.reg_jump]
    exact hkeep p hp hn nofun

end Not

/-! ## Two branches -/

section Branches

variable {s s' s₆ s₈ : CompilerState}

/-- The words of a construct with two branches: the jump at `j₁` leads to the second branch, and
the jump at `j₂` over it. -/
structure Branching (K : Correspondence) (a j₁ j₂ : Nat) (s₆ s₈ : CompilerState) : Prop where
  plain : ∀ i w, a ≤ i → i ≠ j₁ → i ≠ j₂ → s₆.cur.code[i]? = some w → K.site.code[i]? = some w
  toSecond : ∀ w, s₆.cur.code[j₁]? = some w →
    K.site.code[j₁]? = some (w.withTarget s₆.cur.code.length)
  toEnd : ∀ w, s₆.cur.code[j₂]? = some w →
    K.site.code[j₂]? = some (w.withTarget s₈.cur.code.length)
  second : K.site.Carries s₈.cur.code s₆.cur.code.length s₈.cur.code.length

theorem Branching.of_carries {a j₁ j₂ : Nat}
    (h : K.site.Carries (patched s₈ [j₂] s₈.cur.code.length).cur.code a
      (patched s₈ [j₂] s₈.cur.code.length).cur.code.length)
    (hcode : (patched s₆ [j₁] s₆.cur.code.length).cur.code <+: s₈.cur.code)
    (ha : a ≤ j₁) (hj : j₁ < j₂) (hlt : j₂ < s₆.cur.code.length) :
    Branching K a j₁ j₂ s₆ s₈ := by
  rw [length_patched] at h
  have hle : s₆.cur.code.length ≤ s₈.cur.code.length := by
    rw [← length_patched (s := s₆) j₁ s₆.cur.code.length]
    exact hcode.length_le
  have hfirst : ∀ i w, i < s₆.cur.code.length → s₆.cur.code[i]? = some w →
      s₈.cur.code[i]? = some (if i = j₁ then w.withTarget s₆.cur.code.length else w) := by
    intro i w hi hw
    refine getElem?_extends hcode ?_
    rw [getElem?_patched, hw]
    split <;> rfl
  refine ⟨fun i w hi h₁ h₂ hw => ?_, fun w hw => ?_, fun w hw => ?_, fun i hi hi' => ?_⟩
  · have hi' : i < s₆.cur.code.length := (List.getElem?_eq_some_iff.mp hw).1
    rw [h i hi (by omega), getElem?_patched, if_neg h₂, hfirst i w hi' hw, if_neg h₁]
  · rw [h j₁ ha (by omega), getElem?_patched, if_neg (by omega), hfirst j₁ w (by omega) hw,
      if_pos rfl]
  · rw [h j₂ (by omega) (by omega), getElem?_patched, if_pos rfl, hfirst j₂ w hlt hw,
      if_neg (by omega)]
    rfl
  · rw [h i (by omega) hi', getElem?_patched, if_neg (by omega)]

end Branches

/-! ## `?:` -/

section Ternary

variable {s s' : CompilerState} {c t e : Expr} {mc mt me : Interp Value} {dest : Option Nat}
  {q : Nat}

omit [DoubleOps] in
/-- What compiling `?:` does. -/
theorem compileTernary_cases (h : compileTernary rec c t e dest s = .ok q s') :
    ∃ r s₁ s₄ s₅ s₈, rec.expr c none s = .ok r s₁ ∧
      ensureDest dest ((s₁.push ⟨.jumpIfFalse, r, 0, 0⟩ .plain).withRegs
        (s₁.cur.regs.release r)) = .ok q s₄ ∧
      compileInto rec t q s₄ = .ok () s₅ ∧
      compileInto rec e q (patched (s₅.push ⟨.jump, 0, 0, 0⟩ .plain) [s₁.cur.code.length]
        (s₅.push ⟨.jump, 0, 0, 0⟩ .plain).cur.code.length) = .ok () s₈ ∧
      s' = patched s₈ [s₅.cur.code.length] s₈.cur.code.length := by
  obtain ⟨r, s₁, hcond, h⟩ := bind_eq_ok.mp h
  obtain ⟨j₁, s₂, hjump, h⟩ := bind_eq_ok.mp h
  obtain ⟨u, s₃, hfree, h⟩ := bind_eq_ok.mp h
  obtain ⟨q', s₄, hdest, h⟩ := bind_eq_ok.mp h
  obtain ⟨u, s₅, hthen, h⟩ := bind_eq_ok.mp h
  obtain ⟨j₂, s₆, hjump', h⟩ := bind_eq_ok.mp h
  obtain ⟨u, s₇, hpatch, h⟩ := bind_eq_ok.mp h
  obtain ⟨u, s₈, helse, h⟩ := bind_eq_ok.mp h
  obtain ⟨u, s₉, hpatch', h⟩ := bind_eq_ok.mp h
  cases h
  cases hjump
  cases hfree
  cases hjump'
  rw [patchHere_ok hpatch] at helse
  exact ⟨r, s₁, s₄, s₅, s₈, hcond, hdest, hthen, helse, patchHere_ok hpatch'⟩

theorem ternary_follows (hK : K.Logical)
    (hcond : ∀ s₁, Progress s s₁ → FollowsAt K env rec mc c s₁)
    (hthen : ∀ s₁, Progress s s₁ → FollowsAt K env rec mt t s₁)
    (helse : ∀ s₁, Progress s s₁ → FollowsAt K env rec me e s₁)
    (hlands : ∀ d e, Lands d (rec.expr e (some d)))
    (htdecl : ∀ n, Assigns env n t → s.declares n = false)
    (hedecl : ∀ n, Assigns env n e → s.declares n = false) (ht : s.cur.Tidy)
    (hd : DestLive dest s.cur) (h : compileTernary rec c t e dest s = .ok q s') :
    ExprPost env (.ternary c t e) dest s s' q ∧
      Follows K (do if ← Interp.truthy (← mc) then mt else me) dest s.cur s'.cur q := by
  obtain ⟨r, s₁, s₄, s₅, s₈, hexpr, hdest, hinto, hinto', rfl⟩ := compileTernary_cases h
  obtain ⟨h₁, hruns₁⟩ := hcond s (.refl ht) none r s₁ ht (destLive_none _) hexpr
  set s₂ := s₁.push ⟨.jumpIfFalse, r, 0, 0⟩ .plain with hs₂
  set s₃ := s₂.withRegs (s₁.cur.regs.release r) with hs₃
  have h₂ : StmtPost s₁ s₂ := push_post h₁.tidy _ _
  have hpost₃ : StmtPost s s₃ := (h₁.stmtPost.trans h₂).release (h₂.live r h₁.result)
    (h₁.disposable h₂.toProgress)
  have hd₃ : DestLive dest s₃.cur := fun d hd' =>
    ⟨hpost₃.live d (hd d hd').1, hpost₃.homeless d (hd d hd').1 (hd d hd').2⟩
  have h₄ := ensureDest_ok hdest hpost₃.tidy hd₃
  have hpost₄ := hpost₃.trans h₄.post
  have hem₄ : s₁.Emits s₄ :=
    (((CompilerState.Emits.refl s₁).push _ _).withRegs _).trans h₄.emits
  obtain ⟨h₅, hruns₅⟩ := into_ok (hthen s₄ hpost₄.toProgress) (hlands q t) h₄.post.tidy h₄.live
    h₄.homeless hinto
  have hhome₅ := h₅.homeless q h₄.live h₄.homeless
  set s₆ := s₅.push ⟨.jump, 0, 0, 0⟩ .plain with hs₆
  have hpost₅ := hpost₄.trans h₅.stmtPost
  have hpost₆ : StmtPost s s₆ := hpost₅.push _ _
  set s₇ := patched s₆ [s₁.cur.code.length] s₆.cur.code.length with hs₇
  have hpost₇ : StmtPost s s₇ := hpost₆.patch h₁.code.length_le _
  have hem₇ : s₅.Emits s₇ :=
    ((CompilerState.Emits.refl s₅).push _ _).trans (patched_emits s₆ _ _)
  obtain ⟨h₈, hruns₈⟩ := into_ok (helse s₇ hpost₇.toProgress) (hlands q e) hpost₇.tidy
    h₅.result hhome₅ hinto'
  have hem₉ := patched_emits s₈ [s₅.cur.code.length] s₈.cur.code.length
  have hpost₉ := (hpost₇.trans h₈.stmtPost).patch hpost₅.length s₈.cur.code.length
  have hnames₅ : s₄.cur.SameNames s₅.cur :=
    h₅.names fun n hn => hpost₄.settled n (htdecl n hn)
  have hnames₈ : s₇.cur.SameNames s₈.cur :=
    h₈.names fun n hn => hpost₇.settled n (hedecl n hn)
  have hlen₄ : s₄.cur.code.length = s₁.cur.code.length + 1 := by
    rw [h₄.code]
    exact length_push (s := s₁) ⟨.jumpIfFalse, r, 0, 0⟩ .plain
  have hlen₆ : s₆.cur.code.length = s₅.cur.code.length + 1 := length_push _ _
  have hlen₇ : s₇.cur.code.length = s₆.cur.code.length := length_patched _ _
  have hle₅ := h₅.code.length_le
  refine ⟨{ hpost₉ with
      loops := ?_
      names := ?_
      result := h₈.result
      fresh := ?_ }, ?_⟩
  · rw [hem₉.loops, h₈.loops, hem₇.loops, h₅.loops, hem₄.loops, h₁.loops]
  · intro hnone
    refine (h₁.names fun n hn => hnone n (.condition hn)).trans ?_
    exact (((hem₄.names.trans hnames₅).trans hem₇.names).trans hnames₈).trans hem₉.names
  · exact fun hnone =>
      .inl ⟨fun hl => h₄.fresh hnone (hpost₃.live q hl), h₈.homeless q h₅.result hhome₅⟩
  · intro hcode hcov cfg σ hh
    have hwords : Branching K s.cur.code.length s₁.cur.code.length s₅.cur.code.length s₆ s₈ :=
      .of_carries hcode h₈.code h₁.code.length_le (by omega) (by omega)
    -- What was emitted for the condition and the first branch is still there.
    have hcode₆ : s₅.cur.code <+: s₆.cur.code := List.prefix_append _ _
    have hold₄ : ∀ i w, s₄.cur.code[i]? = some w → s₆.cur.code[i]? = some w :=
      fun i w hw => getElem?_extends (h₅.code.trans hcode₆) hw
    have hcode₄ : s₁.cur.code <+: s₄.cur.code := h₄.code ▸ List.prefix_append _ _
    have hold₁ : ∀ i w, s₁.cur.code[i]? = some w → s₆.cur.code[i]? = some w :=
      fun i w hw => hold₄ i w (getElem?_extends hcode₄ hw)
    have hcarries₁ : K.site.Carries s₁.cur.code s.cur.code.length s₁.cur.code.length := by
      intro i hi hlt
      have hget := List.getElem?_eq_getElem hlt
      rw [hwords.plain i _ hi (by omega) (by omega) (hold₁ i _ hget), hget]
    have hcarries₅ : K.site.Carries s₅.cur.code s₄.cur.code.length s₅.cur.code.length := by
      intro i hi hlt
      have hget := List.getElem?_eq_getElem hlt
      have hle := h₁.code.length_le
      rw [hwords.plain i _ (by omega) (by omega) (by omega)
        (getElem?_extends hcode₆ hget), hget]
    have hcarries₈ : K.site.Carries s₈.cur.code s₇.cur.code.length s₈.cur.code.length := by
      rw [hlen₇]
      exact hwords.second
    have hjump₁ := hwords.toSecond ⟨.jumpIfFalse, r, 0, 0⟩ (hold₄ _ _ (by
      rw [h₄.code]
      exact getElem?_push (s := s₁) ⟨.jumpIfFalse, r, 0, 0⟩ .plain))
    have hjump₂ := hwords.toEnd ⟨.jump, 0, 0, 0⟩ (getElem?_push _ _)
    have hcov₈ : K.site.Covers s₈.cur :=
      hcov.of_tables (patched_progress h₈.tidy _ _).tables
    have hcov₇ : K.site.Covers s₇.cur := hcov₈.of_tables h₈.tables
    have hcov₅ : K.site.Covers s₅.cur := hcov₇.of_tables (hem₇.tables (Nat.le_refl _))
    have hcov₁ : K.site.Covers s₁.cur := by
      refine hcov₅.of_tables ((hem₄.tables ?_).trans h₅.tables)
      refine Nat.le_trans ?_ h₄.post.tables.max
      exact Nat.le_of_eq RegisterAllocator.release_max.symm
    have hne : ∀ p, s.cur.regs.Live p → dest ≠ some p → p ≠ q :=
      fun p hp => h₄.ne (hpost₃.live p hp)
    refine Site.Sim.bind (hruns₁ hcarries₁ hcov₁ cfg σ hh) ?_
    rintro v c₁ σ₁ ⟨hh₁, ⟨v', hreg, hval⟩, hkeep₁⟩
    have hstep := hh₁.1.step_jumpIf hjump₁ hreg (.inr rfl)
    rw [hK.truth hh₁.2 hval, Instruction.withTarget_bx] at hstep
    rw [bind_apply, truthy_apply]
    dsimp only
    by_cases hv : v.holds σ₁
    · rw [hv, if_neg (by simp)] at hstep
      rw [if_pos hv]
      have hh₄ : K.Here s₄.cur.code.length s₄.cur (K.site.jump (s₁.cur.code.length + 1) c₁) σ₁ := by
        rw [hlen₄]
        exact ⟨hh₁.1.jump _, K.names hem₄.names (K.jump _ hh₁.2)⟩
      refine .step hstep ((hruns₅ hcarries₅ hcov₅ _ _ hh₄).goOn ?_)
      rintro w c₅ σ₅ ⟨hh₅, hw, hkeep₅⟩
      have hstep' := hh₅.1.step_jumpTo hjump₂ rfl
      rw [Instruction.withTarget_bx] at hstep'
      refine .head hstep' (.here ⟨?_, hw, ?_⟩)
      · rw [length_patched]
        exact ⟨hh₅.1.jump _, K.names ((hem₇.names.trans hnames₈).trans hem₉.names)
          (K.jump _ hh₅.2)⟩
      · exact hkeep₁.of_none.trans (hkeep₅.before hpost₄ hne)
    · rw [Bool.eq_false_iff.mpr hv, if_pos (by simp)] at hstep
      rw [if_neg hv]
      have hh₇ : K.Here s₇.cur.code.length s₇.cur (K.site.jump s₆.cur.code.length c₁) σ₁ := by
        rw [hlen₇]
        exact ⟨hh₁.1.jump _, K.names ((hem₄.names.trans hnames₅).trans hem₇.names)
          (K.jump _ hh₁.2)⟩
      refine .step hstep ((hruns₈ hcarries₈ hcov₈ _ _ hh₇).mono ?_ fun _ _ _ h => h)
      intro w c₈ σ₈ hw
      exact hw.patched _ _ (hkeep₁.of_none.trans (hw.2.2.before hpost₇ hne))

end Ternary

/-! ## `??` -/

section Coalesce

variable {s s' : CompilerState} {l r : Expr} {ml mr : Interp Value} {dest : Option Nat} {q : Nat}

/-- What compiling `??` has emitted behind the left operand: a test of it, and a move into the
register of the result. -/
def tested₂ (s₂ : CompilerState) (a q : Nat) : CompilerState :=
  ((((s₂.push ⟨.jumpIfNull, a, 0, 0⟩ .plain).push ⟨.move, q, a, 0⟩ .plain).withRegs
    (s₂.cur.regs.release a)).push ⟨.jump, 0, 0, 0⟩ .plain)

omit [DoubleOps] in
theorem compileCoalesce_cases (h : compileCoalesce rec l r dest s = .ok q s') :
    ∃ a s₁ s₂ s₈, rec.expr l none s = .ok a s₁ ∧ ensureDest dest s₁ = .ok q s₂ ∧
      compileInto rec r q (patched (tested₂ s₂ a q) [s₂.cur.code.length]
        (tested₂ s₂ a q).cur.code.length) = .ok () s₈ ∧
      s' = patched s₈ [s₂.cur.code.length + 2] s₈.cur.code.length := by
  obtain ⟨a, s₁, hl, h⟩ := bind_eq_ok.mp h
  obtain ⟨q', s₂, hdest, h⟩ := bind_eq_ok.mp h
  obtain ⟨j₁, s₃, hjump, h⟩ := bind_eq_ok.mp h
  obtain ⟨u, s₄, hmove, h⟩ := bind_eq_ok.mp h
  obtain ⟨u, s₅, hfree, h⟩ := bind_eq_ok.mp h
  obtain ⟨j₂, s₆, hjump', h⟩ := bind_eq_ok.mp h
  obtain ⟨u, s₇, hpatch, h⟩ := bind_eq_ok.mp h
  obtain ⟨u, s₈, hr, h⟩ := bind_eq_ok.mp h
  obtain ⟨u, s₉, hpatch', h⟩ := bind_eq_ok.mp h
  cases h
  cases hjump
  cases hmove
  cases hfree
  cases hjump'
  rw [patchHere_ok hpatch] at hr
  refine ⟨a, s₁, s₂, s₈, hl, hdest, hr, (patchHere_ok hpatch').trans ?_⟩
  have hlen : (((s₂.push ⟨.jumpIfNull, a, 0, 0⟩ .plain).push ⟨.move, q, a, 0⟩ .plain).withRegs
      (s₂.cur.regs.release a)).cur.code.length = s₂.cur.code.length + 2 := by
    simp [CompilerState.push, CompilerState.withRegs, FunctionCompiler.pushUnit]
  exact congrArg (fun j => patched s₈ [j] s₈.cur.code.length) hlen

omit [DoubleOps] in
theorem tested₂_code (s₂ : CompilerState) (a q : Nat) : (tested₂ s₂ a q).cur.code =
    s₂.cur.code ++ [⟨.jumpIfNull, a, 0, 0⟩, ⟨.move, q, a, 0⟩, ⟨.jump, 0, 0, 0⟩] := by
  simp [tested₂, CompilerState.push, CompilerState.withRegs, FunctionCompiler.pushUnit]

omit [DoubleOps] in
theorem tested₂_emits (s₂ : CompilerState) (a q : Nat) : s₂.Emits (tested₂ s₂ a q) :=
  ((((CompilerState.Emits.refl s₂).push _ _).push _ _).withRegs _).push _ _

theorem coalesce_follows (hK : K.Logical)
    (hl : ∀ s₁, Progress s s₁ → FollowsAt K env rec ml l s₁)
    (hr : ∀ s₁, Progress s s₁ → FollowsAt K env rec mr r s₁)
    (hlands : ∀ d e, Lands d (rec.expr e (some d)))
    (hdecl : ∀ n, Assigns env n r → s.declares n = false) (ht : s.cur.Tidy)
    (hd : DestLive dest s.cur) (h : compileCoalesce rec l r dest s = .ok q s') :
    ExprPost env (.binary l .coalesce r) dest s s' q ∧
      Follows K (do
        let v ← ml
        if v = .none then mr else return v) dest s.cur s'.cur q := by
  obtain ⟨a, s₁, s₂, s₈, hexpr, hdest, hinto, rfl⟩ := compileCoalesce_cases h
  obtain ⟨h₁, hruns₁⟩ := hl s (.refl ht) none a s₁ ht (destLive_none _) hexpr
  have h₂ := ensureDest_ok hdest h₁.tidy (h₁.destLive hd)
  have hne := h₁.operand_ne h₂ hd
  have hpost₂ := h₁.stmtPost.trans h₂.post
  set s₆ := tested₂ s₂ a q with hs₆
  have hem₆ : s₂.Emits s₆ := tested₂_emits s₂ a q
  have hmoved : StmtPost s₁ ((s₂.push ⟨.jumpIfNull, a, 0, 0⟩ .plain).push ⟨.move, q, a, 0⟩ .plain) :=
    (h₂.post.push _ _).push _ _
  have hpost₆ : StmtPost s s₆ := ((h₁.stmtPost.trans hmoved).release (hmoved.live a h₁.result)
    (h₁.disposable hmoved.toProgress)).push _ _
  have hlive₆ : s₆.cur.regs.Live q := RegisterAllocator.Live.release h₂.live (.inl hne.symm)
  have hhome₆ : s₆.cur.Homeless q := h₂.homeless
  have hlen₂ : s₂.cur.code.length = s₁.cur.code.length := congrArg List.length h₂.code
  have hlen₆ : s₆.cur.code.length = s₂.cur.code.length + 3 := by
    rw [hs₆, tested₂_code, List.length_append]
    rfl
  have hle₁ := h₁.code.length_le
  set s₇ := patched s₆ [s₂.cur.code.length] s₆.cur.code.length with hs₇
  have hpost₇ : StmtPost s s₇ := hpost₆.patch (by omega) _
  have hem₇ : s₂.Emits s₇ := hem₆.trans (patched_emits s₆ _ _)
  have hlen₇ : s₇.cur.code.length = s₆.cur.code.length := length_patched _ _
  obtain ⟨h₈, hruns₈⟩ := into_ok (hr s₇ hpost₇.toProgress) (hlands q r) hpost₇.tidy hlive₆ hhome₆
    hinto
  have hem₉ := patched_emits s₈ [s₂.cur.code.length + 2] s₈.cur.code.length
  have hpost₉ := (hpost₇.trans h₈.stmtPost).patch (by omega : s.cur.code.length ≤
    s₂.cur.code.length + 2) s₈.cur.code.length
  have hnames₈ : s₇.cur.SameNames s₈.cur :=
    h₈.names fun n hn => hpost₇.settled n (hdecl n hn)
  have hnames₉ := (hem₇.names.trans hnames₈).trans hem₉.names
  refine ⟨{ hpost₉ with
      loops := ?_
      names := ?_
      result := h₈.result
      fresh := ?_ }, ?_⟩
  · rw [hem₉.loops, h₈.loops, hem₇.loops, h₂.emits.loops, h₁.loops]
  · intro hnone
    exact ((h₁.names fun n hn => hnone n (.left hn)).trans h₂.emits.names).trans hnames₉
  · exact fun hnone =>
      .inl ⟨fun hlive => h₂.fresh hnone (h₁.live q hlive), h₈.homeless q hlive₆ hhome₆⟩
  · intro hcode hcov cfg σ hh
    have hwords : Branching K s.cur.code.length s₂.cur.code.length (s₂.cur.code.length + 2) s₆ s₈ :=
      .of_carries hcode h₈.code (by omega) (by omega) (by omega)
    have hcarries₁ : K.site.Carries s₁.cur.code s.cur.code.length s₁.cur.code.length := by
      intro i hi hlt
      have hget := List.getElem?_eq_getElem hlt
      have hcode₆ : s₁.cur.code <+: s₆.cur.code := by
        rw [hs₆, tested₂_code, h₂.code]
        exact List.prefix_append _ _
      rw [hwords.plain i _ hi (by omega) (by omega) (getElem?_extends hcode₆ hget), hget]
    have hjump₁ := hwords.toSecond ⟨.jumpIfNull, a, 0, 0⟩ (by rw [hs₆, tested₂_code]; simp)
    have hmove := hwords.plain (s₂.cur.code.length + 1) ⟨.move, q, a, 0⟩ (by omega) (by omega)
      (by omega) (by rw [hs₆, tested₂_code]; simp)
    have hjump₂ := hwords.toEnd ⟨.jump, 0, 0, 0⟩ (by rw [hs₆, tested₂_code]; simp)
    have hcarries₈ : K.site.Carries s₈.cur.code s₇.cur.code.length s₈.cur.code.length := by
      rw [hlen₇]
      exact hwords.second
    have hcov₈ : K.site.Covers s₈.cur :=
      hcov.of_tables (patched_progress h₈.tidy _ _).tables
    have hcov₇ : K.site.Covers s₇.cur := hcov₈.of_tables h₈.tables
    have hcov₂ : K.site.Covers s₂.cur :=
      hcov₇.of_tables (hem₇.tables (Nat.le_of_eq RegisterAllocator.release_max.symm))
    have hcov₁ : K.site.Covers s₁.cur := hcov₂.of_tables h₂.post.tables
    have hqlt : q < K.site.frame.proto.regCount := hcov₂.lt h₂.post.tidy h₂.live
    refine Site.Sim.bind (hruns₁ hcarries₁ hcov₁ cfg σ hh) ?_
    rintro v c₁ σ₁ ⟨hh₁, ⟨v', hreg, hval⟩, hkeep₁⟩
    rw [← hlen₂] at hh₁
    have hother : ∀ p, s.cur.regs.Live p → dest ≠ some p → p ≠ q :=
      fun p hp => h₂.ne (h₁.live p hp)
    have hstep := hh₁.1.step_jumpIfNull hjump₁ hreg rfl
    rw [Instruction.withTarget_bx] at hstep
    by_cases hv : v = .none
    · rw [if_pos ((hK.null hval).mpr hv)] at hstep
      rw [if_pos hv]
      have hh₇ : K.Here s₇.cur.code.length s₇.cur (K.site.jump s₆.cur.code.length c₁) σ₁ := by
        rw [hlen₇]
        exact ⟨hh₁.1.jump _, K.names (h₂.emits.names.trans hem₇.names) (K.jump _ hh₁.2)⟩
      refine .step hstep ((hruns₈ hcarries₈ hcov₈ _ _ hh₇).mono ?_ fun _ _ _ h => h)
      intro w c₈ σ₈ hw
      exact hw.patched _ _ (hkeep₁.of_none.trans (hw.2.2.before hpost₇ hother))
    · rw [if_neg ((hK.null hval).not.mpr hv)] at hstep
      rw [if_neg hv]
      have hat₁ : K.site.At (s₂.cur.code.length + 1) (K.site.jump (s₂.cur.code.length + 1) c₁) :=
        hh₁.1.jump _
      have hstep' := hat₁.step_unary hmove rfl rfl hqlt hreg rfl
      have hat₂ := (hat₁.jump (s₂.cur.code.length + 1 + 1)).write q v'
      have hstep'' := hat₂.step_jumpTo hjump₂ rfl
      rw [Instruction.withTarget_bx] at hstep''
      refine .step hstep (.step hstep' (.step hstep'' (.pure ⟨⟨?_, ?_⟩, ⟨v', ?_, hval⟩, ?_⟩)))
      · rw [length_patched]
        exact hat₂.jump _
      · refine K.names hnames₉ (K.jump _ (K.write _ h₂.homeless (K.jump _ (K.jump _ ?_))))
        exact K.names h₂.emits.names hh₁.2
      · exact Site.reg_write_self ((hat₁.jump _).isSome_reg hqlt)
      · intro p hp hn hne
        rw [Site.reg_jump, Site.reg_write_of_ne (hother p hp hne).symm, Site.reg_jump,
          Site.reg_jump]
        exact hkeep₁ p hp hn nofun

end Coalesce

/-! ## Trees -/

section Tree

variable {host : InterpHost}

/-- The first reading as a computation of the interpreter. -/
def operandEval (host : InterpHost) (n : Nat) (t : LogicTree) : Interp Value :=
  fun σ => (operandRun host n t σ).1

/-- What has no fuel is followed by any code. -/
theorem FollowsAt.timeout {m : Interp Value} {e : Expr} {s : CompilerState}
    (h : FollowsAt K env rec m e s) : FollowsAt K env rec Exec.timeout e s :=
  fun dest r s' ht hd hc => ⟨(h dest r s' ht hd hc).1, fun _ _ _ _ _ => trivial⟩

theorem operandEval_leaf (n : Nat) (e : Expr) :
    operandEval host n (.leaf e) = (Interp.recAt host n).eval e := by
  cases n <;> rfl

theorem operandEval_not (n : Nat) (pre : Bool) (t : LogicTree) :
    operandEval host (n + 1) (.not pre t) =
      (do return .bool (!(← Interp.truthy (← operandEval host n t))) : Interp Value) := by
  funext σ
  show (Outcome.goOn (operandRun host n t σ) _).1 = _
  rw [bind_apply, operandEval]
  rcases operandRun host n t σ with ⟨v | e | _, tr⟩ <;> rfl

theorem operandEval_logical (n : Nat) (conj : Bool) (l r : LogicTree) :
    operandEval host (n + 1) (.logical conj l r) = (do
      let v ← operandEval host n l
      if (← Interp.truthy v) = conj then operandEval host n r else return v : Interp Value) := by
  funext σ
  show (Outcome.goOn (operandRun host n l σ) _).1 = _
  rw [bind_apply, operandEval]
  rcases operandRun host n l σ with ⟨v | e | _, tr⟩
  · rename_i σ₁
    show (if v.holds σ₁ = conj then _ else _ : Outcome (Trace × Trace)).1 =
      (if v.holds σ₁ = conj then operandEval host n r else return v : Interp Value) σ₁
    by_cases h : v.holds σ₁ = conj
    · rw [if_pos h, if_pos h, answered_operand]
      rfl
    · rw [if_neg h, if_neg h]
      rfl
  · rfl
  · rfl

theorem operandEval_coalesce (n : Nat) (l r : LogicTree) :
    operandEval host (n + 1) (.coalesce l r) = (do
      let v ← operandEval host n l
      if v = .none then operandEval host n r else return v : Interp Value) := by
  funext σ
  show (Outcome.goOn (operandRun host n l σ) _).1 = _
  rw [bind_apply, operandEval]
  rcases operandRun host n l σ with ⟨v | e | _, tr⟩
  · by_cases h : v = .none
    · simp only [Outcome.goOn, if_pos h]
      rfl
    · simp only [Outcome.goOn, if_neg h]
      rfl
  · rfl
  · rfl

theorem operandEval_cond (n : Nat) (c t e : LogicTree) :
    operandEval host (n + 1) (.cond c t e) = (do
      if ← Interp.truthy (← operandEval host n c) then operandEval host n t
      else operandEval host n e : Interp Value) := by
  funext σ
  show (Outcome.goOn (operandRun host n c σ) _).1 = _
  rw [bind_apply, operandEval]
  rcases operandRun host n c σ with ⟨v | e' | _, tr⟩
  · rename_i σ₁
    show (if v.holds σ₁ then _ else _ : Outcome (Trace × Trace)).1 =
      (if v.holds σ₁ then operandEval host n t else operandEval host n e : Interp Value) σ₁
    by_cases h : v.holds σ₁
    · rw [if_pos h, if_pos h]
      rfl
    · rw [if_neg h, if_neg h]
      rfl
  · rfl
  · rfl

/-- The operands that may be left out. -/
def LogicTree.skippable : LogicTree → List Expr
  | .leaf _ => []
  | .not _ t => t.skippable
  | .logical _ l r => l.skippable ++ r.toExpr :: r.skippable
  | .coalesce l r => l.skippable ++ r.toExpr :: r.skippable
  | .cond c t e => c.skippable ++ (t.toExpr :: t.skippable ++ e.toExpr :: e.skippable)

/-- The operands that may be left out assign no variable that the compiler would declare there. -/
def LogicTree.Settled (env : SourceEnv) (t : LogicTree) (s : CompilerState) : Prop :=
  ∀ e ∈ t.skippable, ∀ x, Assigns env x e → s.declares x = false

theorem LogicTree.Settled.later {t : LogicTree} {s s₁ : CompilerState} (h : t.Settled env s)
    (hp : Progress s s₁) : t.Settled env s₁ := fun e he x hx => hp.settled x (h e he x hx)

theorem LogicTree.Settled.part {t t' : LogicTree} {s : CompilerState} (h : t.Settled env s)
    (hsub : t'.skippable ⊆ t.skippable) : t'.Settled env s := fun e he => h e (hsub he)

omit [DoubleOps] in
theorem compileBinary_logical (rec : Rec) (conj : Bool) (l r : Expr) (dest : Option Nat) :
    compileBinary rec l (LogicTree.logicalOp conj) r dest =
      compileLogical rec l (LogicTree.logicalOp conj) r dest := by
  cases conj <;> rfl

/-- The compiled code of a tree follows the first reading of it. -/
theorem logicTree_follows (hK : K.Logical) {t : LogicTree}
    (hleaves : ∀ e ∈ t.leaves, ∀ m n,
      ExprOk K env (Compile.recAt env m) (Interp.recAt host n) e)
    (m n : Nat) {s : CompilerState} (hset : t.Settled env s) :
    FollowsAt K env (Compile.recAt env m) (operandEval host n t) t.toExpr s := by
  induction t generalizing m n s with
  | leaf e =>
    rw [operandEval_leaf]
    exact (hleaves e (List.mem_singleton_self e) m n).follows s
  | not pre t ih =>
    cases m with
    | zero => exact fun _ _ _ _ _ => nofun
    | succ m =>
      have hnot : ∀ n, FollowsAt K env (Compile.recAt env (m + 1))
          (do return .bool (!(← Interp.truthy (← operandEval host n t)))) (.unary .not t.toExpr pre)
          s := fun n _ _ _ ht hd hc => not_follows hK (ih hleaves m n hset) ht hd hc
      cases n with
      | zero => exact (hnot 0).timeout
      | succ n => exact operandEval_not n pre t ▸ hnot n
  | logical conj l r ihl ihr =>
    cases m with
    | zero => exact fun _ _ _ _ _ => nofun
    | succ m =>
      obtain ⟨hleft, hright⟩ := List.forall_mem_append.mp hleaves
      have hr : r.Settled env s := hset.part fun e he =>
        List.mem_append_right _ (List.mem_cons_of_mem _ he)
      have hlogical : ∀ n, FollowsAt K env (Compile.recAt env (m + 1)) (do
          let v ← operandEval host n l
          if (← Interp.truthy v) = conj then operandEval host n r else return v)
          (LogicTree.logical conj l r).toExpr s := by
        intro n dest q s' ht hd hc
        refine logical_follows hK (fun _ hp => ihl hleft m n (LogicTree.Settled.later ?_ hp))
          (fun _ hp => ihr hright m n (hr.later hp)) (fun d e => recAt_lands env d m e)
          (hset _ (by simp [LogicTree.skippable])) ht hd ?_
        · exact hset.part (List.subset_append_left _ _)
        · rw [← compileBinary_logical]
          exact hc
      cases n with
      | zero => exact (hlogical 0).timeout
      | succ n => exact operandEval_logical n conj l r ▸ hlogical n
  | coalesce l r ihl ihr =>
    cases m with
    | zero => exact fun _ _ _ _ _ => nofun
    | succ m =>
      obtain ⟨hleft, hright⟩ := List.forall_mem_append.mp hleaves
      have hl : l.Settled env s := hset.part (List.subset_append_left _ _)
      have hr : r.Settled env s := hset.part fun e he =>
        List.mem_append_right _ (List.mem_cons_of_mem _ he)
      have hcoalesce : ∀ n, FollowsAt K env (Compile.recAt env (m + 1)) (do
          let v ← operandEval host n l
          if v = .none then operandEval host n r else return v)
          (LogicTree.coalesce l r).toExpr s := by
        intro n dest q s' ht hd hc
        exact coalesce_follows hK (fun _ hp => ihl hleft m n (hl.later hp))
          (fun _ hp => ihr hright m n (hr.later hp)) (fun d e => recAt_lands env d m e)
          (hset _ (by simp [LogicTree.skippable])) ht hd hc
      cases n with
      | zero => exact (hcoalesce 0).timeout
      | succ n => exact operandEval_coalesce n l r ▸ hcoalesce n
  | cond c t e ihc iht ihe =>
    cases m with
    | zero => exact fun _ _ _ _ _ => nofun
    | succ m =>
      obtain ⟨hcond, hbranches⟩ := List.forall_mem_append.mp hleaves
      obtain ⟨hthen, helse⟩ := List.forall_mem_append.mp hbranches
      have hc' : c.Settled env s := hset.part (List.subset_append_left _ _)
      have ht' : t.Settled env s := hset.part fun e he => by
        simp only [LogicTree.skippable, List.mem_append, List.mem_cons]
        exact .inr (.inl (.inr he))
      have he' : e.Settled env s := hset.part fun e he => by
        simp only [LogicTree.skippable, List.mem_append, List.mem_cons]
        exact .inr (.inr (.inr he))
      have hternary : ∀ n, FollowsAt K env (Compile.recAt env (m + 1)) (do
          if ← Interp.truthy (← operandEval host n c) then operandEval host n t
          else operandEval host n e) (LogicTree.cond c t e).toExpr s := by
        intro n dest q s' ht hd hc
        exact ternary_follows hK (fun _ hp => ihc hcond m n (hc'.later hp))
          (fun _ hp => iht hthen m n (ht'.later hp)) (fun _ hp => ihe helse m n (he'.later hp))
          (fun d e => recAt_lands env d m e) (hset _ (by simp [LogicTree.skippable]))
          (hset _ (by simp [LogicTree.skippable])) ht hd hc
      cases n with
      | zero => exact (hternary 0).timeout
      | succ n => exact operandEval_cond n c t e ▸ hternary n

end Tree

theorem worlds_logical (x : Site) : (worlds x).Logical where
  truth := by
    rintro fc c σ v v' hw rfl
    exact congrArg (fun w : World => v'.isTruthy w.arrays) hw
  null := by
    rintro v v' rfl
    rfl
  bool _ := rfl

/-- A small number is the same in both engines, with any fuel. -/
theorem number_ok (x : Site) (host : InterpHost) {i : Int64} (hi : -128 ≤ i.toInt ∧ i.toInt ≤ 127)
    (m n : Nat) :
    ExprOk (worlds x) env (Compile.recAt env m) (Interp.recAt host n) (.numberLit i) := by
  cases m with
  | zero => exact fun _ _ _ _ _ _ => nofun
  | succ m =>
    cases n with
    | zero =>
      have hok : ExprOk (worlds x) env (Compile.recAt env (m + 1)) (Interp.recAt host 1)
          (.numberLit i) := numberLit_ok hi rfl
      exact fun s dest r s' ht hd hc => ⟨(hok s dest r s' ht hd hc).1, fun _ _ _ _ _ => trivial⟩
    | succ n => exact numberLit_ok hi rfl

end Follow

/-- `$a = 1 && 2;` -/
def conjunctionProgram : Program :=
  [.mk 1 (.expression (.assign "a" .set none none
    (.binary (.numberLit 1) .and (.numberLit 2))))]

end Look
