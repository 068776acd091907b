/-
The parts without parts: literals, `break`, and blocks of one statement.

A literal is one word, which loads a constant.  The pool of constants takes two
constants for one when they are equal as numbers, so a word may load an integer
for a float; strings, booleans, null and the integers that fit in a byte are
loaded as they are.
-/
import Look.Compiler.Compile
import Look.Engines.Parts

namespace Look

open Exec Compile Instr

/-- The computation ends in a value. -/
def Res.returns {σ ε α : Type} : Res σ ε α → Bool
  | .ok _ _ => true
  | _ => false

theorem Res.returns_iff {σ ε α : Type} {x : Res σ ε α} :
    x.returns = true ↔ ∃ a s, x = .ok a s := by
  constructor
  · intro h
    cases x with
    | ok a s => exact ⟨a, s, rfl⟩
    | _ => cases h
  · rintro ⟨a, s, rfl⟩
    rfl

/-! ## Loading a constant -/

variable [DoubleOps]

/-- The word writes the value to the register and goes on. -/
def Loads (w : Instruction) (r : Nat) (v : Value) (constants : List Value) : Prop :=
  ∀ (x : Site) ip c, constants <+: x.frame.proto.constants → r < x.frame.proto.regCount → x.At ip c →
    x.code[ip]? = some w → c.Steps x.machine (x.write r v (x.jump (ip + 1) c))

/-- What emitting a load does. -/
structure LoadPost (r : Nat) (v : Value) (s s' : CompilerState) : Prop where
  emits : s.Emits s'
  regs : s'.cur.regs = s.cur.regs
  code : ∃ w, s'.cur.code = s.cur.code ++ [w] ∧ Loads w r v s'.cur.constants

/-- The pool has no other constant that counts as equal to the value. -/
def FunctionCompiler.PoolsExactly (fc : FunctionCompiler) (v : Value) : Prop :=
  ∀ k ∈ fc.constants, k.eq v = true → k = v

/-- The value is loaded as it is: it is an operand of the word, or exact in the
pool. -/
def FunctionCompiler.LoadsExactly (fc : FunctionCompiler) (v : Value) : Prop :=
  (∃ i : Int64, v = .int i ∧ -128 ≤ i.toInt ∧ i.toInt ≤ 127) ∨ fc.PoolsExactly v

theorem loadsExactly_string (fc : FunctionCompiler) (text : String) :
    fc.LoadsExactly (.string text) := by
  refine .inr fun k _ heq => ?_
  cases k with
  | string other =>
    have hsame : decide (other = text) = true := heq
    rw [of_decide_eq_true hsame]
  | _ => exact absurd heq Bool.false_ne_true

section Load

variable {s s' : CompilerState} {r i : Nat} {v : Value}

omit [DoubleOps] in
theorem u16_ok {n : Nat} {what : String} (h : u16 n what s = .ok i s') : i = n ∧ s' = s := by
  unfold u16 at h
  split at h
  · cases h
  · cases h
    exact ⟨rfl, rfl⟩

theorem addConst_ok (h : addConst v s = .ok i s') (hex : s.cur.PoolsExactly v) :
    s.Emits s' ∧ s'.cur.regs = s.cur.regs ∧ s'.cur.code = s.cur.code ∧
      s'.cur.constants[i]? = some v := by
  obtain ⟨fc, s₁, hcur, h⟩ := bind_eq_ok.mp h
  cases hcur
  cases hj : s.cur.constants.findIdx? (·.eq v) with
  | some j =>
    simp only [hj] at h
    obtain ⟨rfl, rfl⟩ := u16_ok h
    obtain ⟨hlt, heq, -⟩ := List.findIdx?_eq_some_iff_getElem.mp hj
    refine ⟨.refl _, rfl, rfl, ?_⟩
    rw [List.getElem?_eq_getElem hlt, hex _ (List.getElem_mem hlt) heq]
  | none =>
    simp only [hj] at h
    split at h
    · obtain ⟨u, s₁, hthrow, -⟩ := bind_eq_ok.mp h
      cases hthrow
    · obtain ⟨u, s₁, hadd, h⟩ := bind_eq_ok.mp h
      cases hadd
      obtain ⟨rfl, rfl⟩ := u16_ok h
      refine ⟨⟨_, _, _, _, _, List.prefix_append _ _, rfl⟩, rfl, rfl, ?_⟩
      simp

omit [DoubleOps] in
/-- Integers that fit in a byte, booleans and null are no constants. -/
theorem signedByte_i8Bits {i : Int64} (h : -128 ≤ i.toInt ∧ i.toInt ≤ 127) :
    signedByte (i8Bits i) = i := by
  have hof : Int64.ofInt i.toInt = i := Int64.ofInt_toInt i
  unfold signedByte i8Bits
  by_cases hneg : i.toInt < 0
  · rw [if_pos hneg]
    have : ¬(256 + i.toInt).toNat < 128 := by omega
    rw [if_neg this]
    have hval : (((256 + i.toInt).toNat : Nat) : Int) - 256 = i.toInt := by omega
    rw [hval, hof]
  · rw [if_neg hneg]
    have : i.toInt.toNat < 128 := by omega
    rw [if_pos this]
    have hval : ((i.toInt.toNat : Nat) : Int) = i.toInt := by omega
    rw [hval, hof]

/-- A word that only writes the register. -/
theorem loads_of_exec {w : Instruction} {constants : List Value} (hp : Site.plain w.op)
    (hex : ∀ m f (st : VmState), constants <+: f.proto.constants →
      f.base + r < st.vm.regs.length → execPlain m f w st = .ok () (st.write (f.base + r) v)) :
    Loads w r v constants := by
  intro x ip c hpre hr hat hw
  refine hat.step_write hw hp (hex _ _ _ hpre ?_)
  exact (hat.jump (ip + 1)).reg_lt hr

theorem load_push {w : Instruction} (h : Loads w r v s.cur.constants) :
    LoadPost r v s (s.push w .plain) where
  emits := (CompilerState.Emits.refl s).push w .plain
  regs := rfl
  code := ⟨w, rfl, h⟩

theorem loads_loadConst {constants : List Value} (h : constants[i]? = some v) :
    Loads ⟨.loadConst, r, i, 0⟩ r v constants :=
  loads_of_exec rfl fun m f st hpre hlt => by
    simp only [execPlain, bind_apply, getElem?_extends hpre h, orUb]
    exact setReg_eq v hlt

theorem loads_loadConstW {constants : List Value} (h : constants[i]? = some v) :
    Loads ⟨.loadConstW, r, i / 256, i % 256⟩ r v constants :=
  loads_of_exec rfl fun m f st hpre hlt => by
    have hbx : (Instruction.mk .loadConstW r (i / 256) (i % 256)).bx = i := Nat.div_add_mod i 256
    simp only [execPlain, bind_apply, hbx, getElem?_extends hpre h, orUb]
    exact setReg_eq v hlt

/-- A constant of the pool. -/
theorem load_pooled
    (h : (do
      let idx ← addConst v
      if idx < 256 then emit .loadConst r idx
      else emit .loadConstW r (← hi8 idx) (← lo8 idx) : Compile Unit) s = .ok () s')
    (hex : s.cur.PoolsExactly v) : LoadPost r v s s' := by
  obtain ⟨idx, s₁, hadd, h⟩ := bind_eq_ok.mp h
  obtain ⟨hem, hregs, hcode, hconst⟩ := addConst_ok hadd hex
  have hafter : ∀ w, Loads w r v s₁.cur.constants → LoadPost r v s (s₁.push w .plain) := fun w hw =>
    { emits := hem.push w .plain
      regs := hregs
      code := ⟨w, by rw [← hcode]; rfl, hw⟩ }
  split at h
  · cases h
    exact hafter _ (loads_loadConst hconst)
  · obtain ⟨hi, s₂, hhi, hrest⟩ := bind_eq_ok.mp h
    obtain ⟨-, rfl, rfl⟩ := hi8_ok hhi
    obtain ⟨lo, s₃, hlo, hemit⟩ := bind_eq_ok.mp hrest
    obtain ⟨-, rfl, rfl⟩ := lo8_ok hlo
    cases hemit
    exact hafter _ (loads_loadConstW hconst)

theorem loads_small {op : OpCode} {b : Nat} {constants : List Value}
    (h : (op, v) ∈ [(.loadNull, .none), (.loadTrue, .bool true), (.loadFalse, .bool false)] ∨
      (op = .loadInt ∧ v = .int (signedByte b))) : Loads ⟨op, r, b, 0⟩ r v constants := by
  simp only [List.mem_cons, Prod.mk.injEq, List.not_mem_nil, or_false] at h
  rcases h with (⟨rfl, rfl⟩ | ⟨rfl, rfl⟩ | ⟨rfl, rfl⟩) | ⟨rfl, rfl⟩ <;>
    exact loads_of_exec rfl fun m f st _ hlt => setReg_eq _ hlt

theorem emitLoadConst_ok (h : emitLoadConst r v s = .ok () s') (hex : s.cur.LoadsExactly v) :
    LoadPost r v s s' := by
  unfold emitLoadConst at h
  split at h
  · cases h
    exact load_push (loads_small (.inl (by simp)))
  · rename_i b
    cases h
    cases b
    · exact load_push (loads_small (.inl (by simp)))
    · exact load_push (loads_small (.inl (by simp)))
  · split at h
    · rename_i i _ _
      by_cases hi : -128 ≤ i.toInt ∧ i.toInt ≤ 127
      · rw [if_pos hi] at h
        cases h
        exact load_push (loads_small (.inr ⟨rfl, by rw [signedByte_i8Bits hi]⟩))
      · rw [if_neg hi] at h
        refine load_pooled h (hex.resolve_left ?_)
        rintro ⟨j, hj, hbyte⟩
        cases hj
        exact hi hbyte
    · rename_i hnot
      refine load_pooled h (hex.resolve_left ?_)
      rintro ⟨j, rfl, -⟩
      exact hnot j rfl

end Load

/-! ## Destinations -/

/-- What it takes to have a register for the result. -/
structure DestPost (dest : Option Nat) (s s₁ : CompilerState) (r : Nat) : Prop where
  post : StmtPost s s₁
  emits : s.Emits s₁
  code : s₁.cur.code = s.cur.code
  constants : s₁.cur.constants = s.cur.constants
  live : s₁.cur.regs.Live r
  homeless : s₁.cur.Homeless r
  fresh : dest = none → ¬s.cur.regs.Live r
  given : ∀ d, dest = some d → r = d

omit [DoubleOps] in
theorem ensureDest_ok {dest : Option Nat} {s s₁ : CompilerState} {r : Nat}
    (h : ensureDest dest s = .ok r s₁) (ht : s.cur.Tidy) (hd : DestLive dest s.cur) :
    DestPost dest s s₁ r := by
  cases dest with
  | some d =>
    cases h
    exact ⟨.refl ht, .refl s, rfl, rfl, (hd r rfl).1, (hd r rfl).2, by simp, fun d hd => by
      cases hd; rfl⟩
  | none =>
    obtain ⟨ra, ha, rfl⟩ := allocTemp_ok h
    obtain ⟨hal, -⟩ := RegisterAllocator.alloc_allocated ht.regs ha
    refine ⟨(StmtPost.refl ht).alloc ha, (CompilerState.Emits.refl s).withRegs ra, rfl, rfl,
      hal.live, fun l hl heq => hal.fresh ?_, fun _ => hal.fresh, by simp⟩
    exact heq ▸ (ht.locals l hl).1

/-! ## Literals -/

section Literal

variable {K : Correspondence} {env : SourceEnv} {rec : Rec} {irec : InterpRec} {e : Expr}
  {v : Value}

/-- A literal that is compiled to a load of its value. -/
theorem literal_ok (hc : ∀ dest, rec.expr e dest = do
      let r ← ensureDest dest
      emitLoadConst r v
      return r)
    (hi : irec.eval e = pure v) (hval : K.value v v)
    (hex : ∀ fc : FunctionCompiler, fc.LoadsExactly v) : ExprOk K env rec irec e := by
  intro s dest r s' ht hd h
  rw [hc] at h
  obtain ⟨r', s₁, hdest, h⟩ := bind_eq_ok.mp h
  obtain ⟨u, s₂, hload, h⟩ := bind_eq_ok.mp h
  cases h
  have hp := ensureDest_ok hdest ht hd
  have hl := emitLoadConst_ok hload (hex _)
  obtain ⟨w, hcode, hw⟩ := hl.code
  have hem : s.Emits s' := hp.emits.trans hl.emits
  have hpost : StmtPost s s' := hp.post.emits hl.emits (hcode ▸ List.prefix_append _ _) hl.regs
  refine ⟨{ hpost with
      loops := hem.loops
      names := fun _ => hem.names
      result := hl.regs ▸ hp.live
      fresh := fun hnone => .inl ⟨hp.fresh hnone, ?_⟩ }, ?_⟩
  · exact fun l hmem => hp.homeless l (hl.emits.names.locals ▸ hmem)
  · intro hcarries hcov c σ hh
    rw [hi]
    have hword : K.site.code[s.cur.code.length]? = some w := by
      rw [hcarries _ (Nat.le_refl _) (by rw [hcode, hp.code]; simp), hcode, hp.code]
      simp
    have hlt : r < K.site.frame.proto.regCount := hcov.lt hpost.tidy (hl.regs ▸ hp.live)
    have hstep := hw K.site _ c hcov.constants hlt hh.1 hword
    refine .step hstep (.pure ⟨⟨?_, ?_⟩, ⟨v, ?_, hval⟩, ?_⟩)
    · rw [hcode, hp.code, List.length_append]
      exact (hh.1.jump _).write _ _
    · refine K.names hl.emits.names (K.write _ hp.homeless (K.jump _ (K.names hp.emits.names hh.2)))
    · exact Site.reg_write_self ((hh.1.jump _).isSome_reg hlt)
    · intro q hq hne _
      rw [Site.reg_write_of_ne, Site.reg_jump]
      rintro rfl
      cases dest with
      | none => exact hp.fresh rfl hq
      | some d => exact hne (congrArg some (hp.given d rfl).symm)

theorem numberLit_ok {host : InterpHost} {n m : Nat} {i : Int64} (h : -128 ≤ i.toInt ∧ i.toInt ≤ 127)
    (hval : K.value (.int i) (.int i)) :
    ExprOk K env (Compile.recAt env (n + 1)) (Interp.recAt host (m + 1)) (.numberLit i) :=
  literal_ok (fun _ => rfl) rfl hval (fun _ => .inl ⟨i, rfl, h⟩)

end Literal

/-! ## `break` -/

/-- The innermost loop gets a jump. -/
def CompilerState.addBreak (s : CompilerState) : CompilerState :=
  { s.push ⟨.jump, 0, 0, 0⟩ .leave with cur :=
    { (s.push ⟨.jump, 0, 0, 0⟩ .leave).cur with
      loopStack := s.cur.loopStack.modifyHead fun ctx =>
        { ctx with breakPatches := ctx.breakPatches ++ [s.cur.code.length] } } }

section Break

variable {K : Correspondence} {rec : Rec} {s s' : CompilerState}

omit [DoubleOps] in
theorem emitPendingFinallys_nil {floor : Nat} (hf : s.cur.pendingFinally = []) :
    emitPendingFinallys rec floor s = .ok () s := by
  unfold emitPendingFinallys
  simp [bind_apply, cur, gets_apply, hf]

omit [DoubleOps] in
theorem compileBreak_ok (h : compileBreak rec s = .ok () s') (hf : s.cur.pendingFinally = []) :
    s.cur.loopStack ≠ [] ∧ s' = s.addBreak := by
  obtain ⟨fc, s₁, hcur, h⟩ := bind_eq_ok.mp h
  cases hcur
  cases hl : s.cur.loopStack with
  | nil =>
    simp only [hl] at h
    cases h
  | cons ctx rest =>
    simp only [hl] at h
    obtain ⟨u, s₁, hfin, h⟩ := bind_eq_ok.mp h
    rw [emitPendingFinallys_nil hf] at hfin
    cases hfin
    cases h
    exact ⟨by simp, rfl⟩

omit [DoubleOps] in
theorem addBreak_post (ht : s.cur.Tidy) (hne : s.cur.loopStack ≠ []) : StmtPost s s.addBreak := by
  obtain ⟨ctx, rest, hl⟩ : ∃ ctx rest, s.cur.loopStack = ctx :: rest := List.exists_cons_of_ne_nil hne
  have hcode : s.addBreak.cur.code = s.cur.code ++ [⟨.jump, 0, 0, 0⟩] := rfl
  have hloops : s.addBreak.cur.loopStack =
      { ctx with breakPatches := ctx.breakPatches ++ [s.cur.code.length] } :: rest := by
    simp [CompilerState.addBreak, hl]
  have hpush : StmtPost s (s.push ⟨.jump, 0, 0, 0⟩ .leave) := (StmtPost.refl ht).push _ _
  have hold : s.cur.pending = ctx.pending ++ rest.flatMap LoopContext.pending := by
    simp [FunctionCompiler.pending, hl]
  -- The new jump stands behind all words, so it is in no list yet.
  have hperm : s.addBreak.cur.pending.Perm (s.cur.code.length :: s.cur.pending) := by
    unfold FunctionCompiler.pending
    rw [hloops, hl]
    simp only [List.flatMap_cons, LoopContext.pending, List.append_assoc, List.singleton_append]
    exact List.perm_middle
  exact { hpush with
    tidy :=
      { regs := ht.regs
        locals := ht.locals
        depths := ht.depths
        nodup := by
          rw [hperm.nodup_iff, List.nodup_cons]
          exact ⟨fun hmem => Nat.lt_irrefl _ (ht.pending _ hmem), ht.nodup⟩
        pending := fun i hi => by
          rw [hcode, List.length_append, List.length_singleton]
          rcases List.mem_cons.mp (hperm.mem_iff.mp hi) with rfl | hi
          · exact Nat.lt_succ_self _
          · exact Nat.lt_succ_of_lt (ht.pending i hi)
        switches := fun c hc hsw => by
          rw [hloops] at hc
          rcases List.mem_cons.mp hc with rfl | hc
          · exact ht.switches ctx (hl ▸ List.mem_cons_self) hsw
          · exact ht.switches c (hl ▸ List.mem_cons_of_mem _ hc) hsw }
    tables := ⟨List.prefix_refl _, List.prefix_refl _, Nat.le_refl _⟩
    more := ⟨List.suffix_refl _, fun _ _ => .rfl⟩
    loops := by
      rw [hloops, hl]
      refine .cons ⟨⟨[s.cur.code.length], rfl, by simp⟩, ⟨[], by simp, by simp⟩, rfl, rfl, rfl⟩ ?_
      exact LoopContext.AllGrow.refl _ _ }

/-- Where no `finally` block is pending, `break` is a jump. -/
theorem break_ok (rec : Rec) : StmtOk K [] (compileBreak rec) (throw .break) := by
  intro s s' ht hf h
  obtain ⟨hne, rfl⟩ := compileBreak_ok h hf
  have hpost := addBreak_post ht hne
  refine ⟨hpost, fun ts hts hcode hcov c σ hh => .throw ⟨?_, fun _ => .refl _ _⟩⟩
  obtain ⟨ctx, rest, hl⟩ : ∃ ctx rest, s.cur.loopStack = ctx :: rest := List.exists_cons_of_ne_nil hne
  rw [hl] at hts
  obtain ⟨t, ts', ht', hts', rfl⟩ := List.forall₂_cons_left_iff.mp hts
  refine ⟨rec, t :: ts', s, s, s.cur, .refl _, hh, ht, rfl, ?_, ?_, ?_, ?_, ?_⟩
  · exact emitPendingFinallys_nil hf
  · exact hl ▸ .cons ht' hts'
  · exact fun i w hi hlt => absurd hlt (by omega)
  · exact hcov.of_tables hpost.tables
  · have hw : s.addBreak.cur.code[s.cur.code.length]? = some ⟨.jump, 0, 0, 0⟩ := by
      show (s.cur.code ++ [⟨.jump, 0, 0, 0⟩])[s.cur.code.length]? = _
      simp
    rw [hcode _ _ (Nat.le_refl _) (List.getElem?_eq_some_iff.mp hw).1 hw]
    simp [CompilerState.addBreak, hl, Instruction.resolve]

end Break

/-! ## Worlds

The coarsest correspondence that still says something: it compares the worlds,
and so everything that a program does outside its variables. -/

/-- Both engines have the same world, and values that are the same. -/
def worlds (x : Site) : Correspondence where
  site := x
  value := fun a b => a = b
  state := fun _ c σ => c.world = σ.world
  exit := fun _ c σ => c.world = σ.world
  eq := fun h h' => by rw [h, h']
  names := fun _ h => h
  jump := fun _ h => h
  write := fun _ _ h => h

section Blocks

variable {K : Correspondence} {x : Site} {rec : Rec} {irec : InterpRec}
  {finallys : List PendingFinally}

omit [DoubleOps] in
theorem dropLocals_of_lt {depth : Nat} {ra : RegisterAllocator} {locals : List LocalVar}
    (h : ∀ l ∈ locals, l.depth < depth) : dropLocals depth locals ra = (locals, ra) := by
  cases locals with
  | nil => rfl
  | cons l rest =>
    have := h l List.mem_cons_self
    rw [dropLocals, if_neg (by omega)]

/-- The compiler in the scope of a block. -/
def CompilerState.enter (s : CompilerState) : CompilerState :=
  { s with cur := { s.cur with scopeDepth := s.cur.scopeDepth + 1 } }

/-- The statement does the same in both engines and declares nothing. -/
def QuietOk (K : Correspondence) (rec : Rec) (irec : InterpRec) (finallys : List PendingFinally)
    (st : Stmt) : Prop :=
  StmtOk K finallys (rec.stmt st) (irec.exec st) ∧
    ∀ s s', s.cur.pendingFinally = finallys → rec.stmt st s = .ok () s' →
      s'.cur.locals = s.cur.locals ∧ s'.cur.boxedSlots = s.cur.boxedSlots ∧
        s'.cur.scopeDepth = s.cur.scopeDepth

omit [DoubleOps] in
theorem enter_post {s : CompilerState} (ht : s.cur.Tidy) : StmtPost s s.enter :=
  { StmtPost.refl ht with
    tidy := { ht with
      regs := ht.regs
      locals := ht.locals
      depths := fun l hl => Nat.le_succ_of_le (ht.depths l hl)
      pending := ht.pending
      nodup := ht.nodup }
    tables := ⟨List.prefix_refl _, List.prefix_refl _, Nat.le_refl _⟩
    more := ⟨List.suffix_refl _, fun _ _ => .rfl⟩ }

theorem quiet_all {body : Block} (h : ∀ st ∈ body, QuietOk K rec irec finallys st)
    {s s' : CompilerState} (ht : s.cur.Tidy) (hf : s.cur.pendingFinally = finallys)
    (hc : forEach body rec.stmt s = .ok () s') : s'.cur.locals = s.cur.locals ∧
      s'.cur.boxedSlots = s.cur.boxedSlots ∧ s'.cur.scopeDepth = s.cur.scopeDepth := by
  induction body generalizing s with
  | nil =>
    cases hc
    exact ⟨rfl, rfl, rfl⟩
  | cons st rest ih =>
    obtain ⟨s₁, hone, hrest⟩ := forEach_cons_ok.mp hc
    obtain ⟨hok, hquiet⟩ := h st List.mem_cons_self
    obtain ⟨hpost, -⟩ := hok s s₁ ht hf hone
    obtain ⟨h₁, h₂, h₃⟩ := hquiet s s₁ hf hone
    obtain ⟨h₁', h₂', h₃'⟩ := ih (fun st hst => h st (List.mem_cons_of_mem _ hst)) hpost.tidy
      (hpost.finallys.trans hf) hrest
    exact ⟨h₁'.trans h₁, h₂'.trans h₂, h₃'.trans h₃⟩

/-- A scope of the interpreter changes nothing in the world. -/
theorem sim_inScope {exit : Signal → Config → InterpState → Prop}
    {Q : Unit → Config → InterpState → Prop} {m : Interp Unit} {c : Config} {σ : InterpState}
    (hQ : ∀ c σ σ', σ.world = σ'.world → Q () c σ → Q () c σ')
    (hexit : ∀ e c σ σ', σ.world = σ'.world → exit e c σ → exit e c σ')
    (h : ∀ σ', σ'.world = σ.world → x.Sim exit c Q (m σ')) :
    x.Sim exit c Q (Interp.inScope m σ) := by
  let σ₁ : InterpState := { σ with envs := σ.envs ++
    [{ values := [], parent := some σ.current, fnBoundary := false }] }
  have hrun : Interp.inScope m σ = Interp.withEnv σ.envs.length m σ₁ := rfl
  have hm := h { σ₁ with current := σ.envs.length } rfl
  rw [hrun]
  unfold Interp.withEnv
  cases hr : m { σ₁ with current := σ.envs.length } with
  | ok a σ' =>
    rw [hr] at hm
    exact Reaches.mono hm fun c' => hQ c' σ' _ rfl
  | error e σ' =>
    rw [hr] at hm
    exact Reaches.mono hm fun c' => hexit e c' σ' _ rfl
  | timeout => trivial

/-- What leaves a block depends on the world only, not on the names. -/
theorem worlds_leave {ts : List LoopTarget} {names names' : FunctionCompiler → Prop}
    {e : Signal} {c : Config} {σ σ' : InterpState} (hw : σ.world = σ'.world)
    {fc : FunctionCompiler} (hfc : names' fc)
    (h : (worlds x).leave ts names finallys e c σ) :
    (worlds x).leave ts names' finallys e c σ' := by
  refine h.imp ?_ fun hexit => Eq.trans hexit hw
  rintro floor target ⟨rec, ts', s, s', fc', hfc', hh, hrest⟩
  exact ⟨rec, ts', s, s', fc, hfc, ⟨hh.1, hh.2.trans hw⟩, hrest⟩

/-- `break`, as the compiler and the interpreter take it from a block. -/
theorem break_quiet {env : SourceEnv} {host : InterpHost} {n m : Nat} :
    QuietOk K (Compile.recAt env (n + 1)) (Interp.recAt host (m + 1)) [] (.mk 0 .break) := by
  refine ⟨break_ok (Compile.recAt env n), fun s s' hf h => ?_⟩
  obtain ⟨-, rfl⟩ := compileBreak_ok h hf
  exact ⟨rfl, rfl, rfl⟩

/-- A block of statements that declare nothing. -/
theorem worlds_block {body : Block} (h : ∀ st ∈ body, QuietOk (worlds x) rec irec finallys st) :
    BlockOk (worlds x) rec irec finallys body := by
  intro s s' ht hf hc
  obtain ⟨u, s₁, henter, hc⟩ := bind_eq_ok.mp hc
  cases henter
  obtain ⟨u, s₂, hbody, hleave⟩ := bind_eq_ok.mp hc
  have hpost₁ : StmtPost s s.enter := enter_post ht
  obtain ⟨hpost₂, hruns⟩ := StmtOk.forEach (fun st hst => (h st hst).1) s.enter s₂ hpost₁.tidy hf hbody
  obtain ⟨hlocals, hboxed, hdepth⟩ := quiet_all h hpost₁.tidy hf hbody
  have hlt : ∀ l ∈ s₂.cur.locals, l.depth < s₂.cur.scopeDepth := by
    intro l hl
    rw [hdepth]
    exact Nat.lt_succ_of_le (ht.depths l (hlocals ▸ hl))
  have hs' : s' = { s₂ with cur := { s₂.cur with scopeDepth := s₂.cur.scopeDepth - 1 } } := by
    unfold popScope modifyCur at hleave
    rw [modify_apply] at hleave
    simp only [dropLocals_of_lt hlt] at hleave
    cases hleave
    rfl
  have hnames : s.cur.SameNames s'.cur := by
    rw [hs']
    exact ⟨hlocals, fun l _ => by rw [show s₂.cur.boxedSlots = s.cur.boxedSlots from hboxed]⟩
  have hpost₃ : StmtPost s₂ s' := by
    rw [hs']
    exact { StmtPost.refl hpost₂.tidy with
      tidy := { hpost₂.tidy with
        regs := hpost₂.tidy.regs
        locals := hpost₂.tidy.locals
        depths := fun l hl => Nat.le_pred_of_lt (hlt l hl)
        pending := hpost₂.tidy.pending
        nodup := hpost₂.tidy.nodup }
      tables := ⟨List.prefix_refl _, List.prefix_refl _, Nat.le_refl _⟩
      more := ⟨List.suffix_refl _, fun _ _ => .rfl⟩ }
  refine ⟨(hpost₁.trans hpost₂).trans hpost₃, hnames, fun ts hts hcode hcov c σ hh => ?_⟩
  have hcode₂ : x.CarriesUpTo ts s₂.cur s.cur.code.length s₂.cur.code.length :=
    Site.CarriesUpTo.before hcode hpost₃
  refine sim_inScope (fun c σ σ' hw hq => ?_) (fun e c σ σ' hw he => ?_) fun σ₁ hw => ?_
  · exact ⟨⟨hq.1.1, hq.1.2.trans hw⟩, hq.2⟩
  · exact ⟨worlds_leave hw (.refl _) he.1, he.2⟩
  · have hsim := hruns ts hts hcode₂ (hcov.of_tables hpost₃.tables) c σ₁ ⟨hh.1, hh.2.trans hw.symm⟩
    refine hsim.mono (fun _ c' σ' hq => ?_) fun e c' σ' he => ⟨?_, he.2⟩
    · rw [hs']
      exact hq
    · exact worlds_leave rfl (.refl _) he.1

end Blocks

/-! ## A frame for the code of one function -/

/-- A frame that runs the function alone. -/
def Site.alone (fc : FunctionCompiler) : Site where
  machine := { builtins := none, taskLimit := 0, warnUndef := false }
  frame := { closure := ⟨fc.finish 0, []⟩, ip := 0, base := 0, retReg := none, argc := 0 }
  callers := []
  stack := []

omit [DoubleOps] in
theorem initialState_tidy (env : SourceEnv) : (Compile.initialState env).cur.Tidy where
  regs := RegisterAllocator.init_tidy (Nat.zero_le _)
  locals := by simp [Compile.initialState, FunctionCompiler.init]
  depths := by simp [Compile.initialState, FunctionCompiler.init]
  nodup := by simp [Compile.initialState, FunctionCompiler.init, FunctionCompiler.pending]
  pending := by simp [Compile.initialState, FunctionCompiler.init, FunctionCompiler.pending]
  switches := by simp [Compile.initialState, FunctionCompiler.init]

end Look
