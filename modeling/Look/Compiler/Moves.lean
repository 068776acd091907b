/-
What every run of the compiler keeps.

`CompilerState.Inv` says that the function being compiled and the ones around it
are well formed as far as they go.  `Step` is what a stretch of the compiler does
to them, whether it returns or throws: the current function grows, and the
enclosing ones only learn what a nested function captures or calls.  An error
may be dropped and the compilation go on, so the invariant has to survive a
throw in the middle of an expression.

`Keeps m s Q` is the judgement about a computation of the compiler: from a well
formed state it only steps to well formed states, and when it returns, `Q` holds.
Its rules are those of `Ensures`.
-/
import Mathlib.Data.List.Forall2
import Look.Compiler.FunctionCompiler
import Look.Compiler.Layout

namespace Look

open Exec

/-! ## The invariant -/

namespace LoopContext

/-- The jumps that wait for the end of a loop are jumps, and the target of its
`continue` is a boundary. -/
structure Ok (l : Layout) (ctx : LoopContext) : Prop where
  patches : ∀ i ∈ ctx.breakPatches ++ ctx.continuePatches, l.IsJump i
  target : ∀ t, ctx.continueTarget = some t → l.Boundary t

theorem Ok.mono {l l' : Layout} {ctx : LoopContext} (h : ctx.Ok l) (hg : l.Grows l') :
    ctx.Ok l' :=
  ⟨fun i hi => hg.jump i (h.patches i hi), fun t ht => hg.boundary t (h.target t ht)⟩

end LoopContext

namespace FunctionCompiler

def layout (fc : FunctionCompiler) : Layout where
  words := fc.code.zip fc.origins
  lines := fc.lines
  regs := fc.regs.max
  constants := fc.constants
  nested := fc.nested

/-- A function that is being compiled is well formed as far as it goes. -/
structure Good (fc : FunctionCompiler) : Prop where
  origins : fc.origins.length = fc.code.length
  layout : fc.layout.Ok
  regs : fc.regs.Ok
  params : fc.params.length ≤ fc.regs.max
  locals : ∀ v ∈ fc.locals, v.reg < fc.regs.max
  captures : fc.captures.length ≤ 255
  loops : ∀ ctx ∈ fc.loopStack, ctx.Ok fc.layout
  result : ∀ r, fc.assignResultReg = some r → r < fc.regs.max
  nested : ∀ q ∈ fc.nested, q.WellFormed

theorem length_words {fc : FunctionCompiler} (h : fc.Good) :
    fc.layout.words.length = fc.code.length := by
  simp [layout, h.origins]

/-- What a nested function changes in the ones around it: the variables that it
captures, and the module functions that it calls. -/
def Annotated (fc fc' : FunctionCompiler) : Prop :=
  ∃ captures marked names, (fc.captures.length ≤ 255 → captures.length ≤ 255) ∧
    fc' = { fc with
      captures := captures, nonBuiltinModuleFn := marked, nonBuiltinNames := names }

theorem Annotated.refl (fc : FunctionCompiler) : fc.Annotated fc := ⟨_, _, _, id, rfl⟩

theorem Annotated.trans {fc₁ fc₂ fc₃ : FunctionCompiler} (h : fc₁.Annotated fc₂)
    (h' : fc₂.Annotated fc₃) : fc₁.Annotated fc₃ := by
  obtain ⟨_, _, _, hlen, rfl⟩ := h
  obtain ⟨c, m, n, hlen', rfl⟩ := h'
  exact ⟨c, m, n, fun h => hlen' (hlen h), rfl⟩

theorem Annotated.good {fc fc' : FunctionCompiler} (h : fc.Annotated fc') (hg : fc.Good) :
    fc'.Good := by
  obtain ⟨_, _, _, hlen, rfl⟩ := h
  exact { hg with captures := hlen hg.captures }

theorem Annotated.layout {fc fc' : FunctionCompiler} (h : fc.Annotated fc') :
    fc'.layout = fc.layout := by
  obtain ⟨_, _, _, _, rfl⟩ := h
  rfl

end FunctionCompiler

namespace CompilerState

structure Inv (s : CompilerState) : Prop where
  cur : s.cur.Good
  parents : ∀ fc ∈ s.parents, fc.Good

/-- The current function grows and the enclosing ones stay, up to annotations. -/
structure Step (s s' : CompilerState) : Prop where
  cur : s.cur.layout.Grows s'.cur.layout
  parents : List.Forall₂ FunctionCompiler.Annotated s.parents s'.parents

namespace Step

variable {s s₁ s₂ s₃ : CompilerState}

theorem parents_refl (fcs : List FunctionCompiler) :
    List.Forall₂ FunctionCompiler.Annotated fcs fcs :=
  List.forall₂_same.mpr fun fc _ => .refl fc

theorem parents_trans {fcs₁ fcs₂ fcs₃ : List FunctionCompiler}
    (h : List.Forall₂ FunctionCompiler.Annotated fcs₁ fcs₂)
    (h' : List.Forall₂ FunctionCompiler.Annotated fcs₂ fcs₃) :
    List.Forall₂ FunctionCompiler.Annotated fcs₁ fcs₃ := by
  induction h generalizing fcs₃ with
  | nil =>
    cases h'
    exact .nil
  | cons hfc _ ih =>
    cases h' with
    | cons hfc' hrest => exact .cons (hfc.trans hfc') (ih hrest)

theorem refl (s : CompilerState) : s.Step s :=
  ⟨.refl _, parents_refl _⟩

theorem trans (h : s₁.Step s₂) (h' : s₂.Step s₃) : s₁.Step s₃ :=
  ⟨h.cur.trans h'.cur, parents_trans h.parents h'.parents⟩

/-- A register stays one. -/
theorem max_le (h : s₁.Step s₂) : s₁.cur.regs.max ≤ s₂.cur.regs.max := h.cur.regs

theorem constants_le (h : s₁.Step s₂) : s₁.cur.constants.length ≤ s₂.cur.constants.length :=
  h.cur.constants.length_le

theorem parents_good {fcs fcs' : List FunctionCompiler}
    (h : List.Forall₂ FunctionCompiler.Annotated fcs fcs') (hg : ∀ fc ∈ fcs, fc.Good) :
    ∀ fc ∈ fcs', fc.Good := by
  induction h with
  | nil => exact hg
  | cons hfc _ ih =>
    intro fc hmem
    rcases List.mem_cons.mp hmem with rfl | hmem
    · exact hfc.good (hg _ List.mem_cons_self)
    · exact ih (fun fc hfc => hg fc (List.mem_cons_of_mem _ hfc)) fc hmem

end Step

end CompilerState

/-! ## The judgement -/

namespace Compile

open CompilerState

/-- The moves of the compiler.  A throw leaves a well formed state as well. -/
def moves : Moves CompilerState CompileError where
  rel := Step
  err := fun _ s s' => s'.Inv ∧ s.Step s'
  refl := .refl
  trans := .trans
  absorb := fun h h' => ⟨h'.1, h.trans h'.2⟩

/-- From a well formed state `m` steps to well formed states, and it returns with `Q`. -/
def Keeps {α : Type} (m : Compile α) (s : CompilerState) (Q : α → CompilerState → Prop) : Prop :=
  s.Inv → Ensures moves m s fun a s' => s'.Inv ∧ Q a s'

section Rules

variable {α β : Type} {s : CompilerState} {m : Compile α} {f : α → Compile β}
  {Q Q' : α → CompilerState → Prop} {R : β → CompilerState → Prop}

theorem Keeps.intro (h : s.Inv → Keeps m s Q) : Keeps m s Q := fun hs => h hs hs

theorem Keeps.pure {a : α} (h : Q a s) : Keeps (Pure.pure a) s Q :=
  fun hs => Ensures.pure ⟨hs, h⟩

theorem Keeps.throw {e : CompileError} : Keeps (Exec.throw e) s Q :=
  fun hs => Ensures.throw ⟨hs, .refl s⟩

theorem Keeps.timeout : Keeps Exec.timeout s Q := fun _ => Ensures.timeout

theorem Keeps.gets {g : CompilerState → α} (h : Q (g s) s) : Keeps (Exec.gets g) s Q :=
  fun hs => Ensures.gets ⟨hs, h⟩

theorem Keeps.modify {g : CompilerState → CompilerState} {Q : Unit → CompilerState → Prop}
    (hg : s.Inv → (g s).Inv ∧ s.Step (g s)) (h : Q () (g s)) : Keeps (Exec.modify g) s Q :=
  fun hs => Ensures.modify (hg hs).2 ⟨(hg hs).1, h⟩

theorem Keeps.mono (h : Keeps m s Q) (hq : ∀ a s', s'.Inv → s.Step s' → Q a s' → Q' a s') :
    Keeps m s Q' :=
  fun hs => (h hs).mono fun a s' hstep hqa => ⟨hqa.1, hq a s' hqa.1 hstep hqa.2⟩

theorem Keeps.done (h : Keeps m s Q) : Keeps m s fun _ _ => True :=
  h.mono fun _ _ _ _ _ => trivial

theorem Keeps.ite {p : Prop} [Decidable p] {m' : Compile α} (h : p → Keeps m s Q)
    (h' : ¬p → Keeps m' s Q) : Keeps (if p then m else m') s Q :=
  fun hs => Ensures.ite (fun hp => h hp hs) fun hp => h' hp hs

/-- The second half starts where the first one ended, with no fewer registers. -/
theorem Keeps.bind (hm : Keeps m s Q)
    (hf : ∀ a s', s.Step s' → s.cur.regs.max ≤ s'.cur.regs.max → Q a s' → Keeps (f a) s' R) :
    Keeps (m >>= f) s R :=
  fun hs => Ensures.bind (hm hs) fun a s' hstep hq => hf a s' hstep hstep.max_le hq.2 hq.1

theorem Keeps.gets_bind {γ : Type} {g : CompilerState → γ} {f : γ → Compile α}
    (h : Keeps (f (g s)) s Q) : Keeps (Exec.gets g >>= f) s Q := h

theorem Keeps.pure_bind {γ : Type} {c : γ} {f : γ → Compile α} (h : Keeps (f c) s Q) :
    Keeps (Pure.pure c >>= f) s Q := h

theorem Keeps.throw_bind {γ : Type} {e : CompileError} {f : γ → Compile α} :
    Keeps (Exec.throw e >>= f) s Q := Keeps.throw

/-- A loop keeps what every turn keeps, from wherever it starts. -/
theorem Keeps.forEach {l : List β} {m : β → Compile Unit}
    (hm : ∀ a ∈ l, ∀ s', s.Step s' → Keeps (m a) s' fun _ _ => True) :
    Keeps (forEach l m) s fun _ _ => True := by
  induction l generalizing s with
  | nil => exact Keeps.pure trivial
  | cons a l ih =>
    refine Keeps.bind (hm a List.mem_cons_self s (.refl s)) fun _ s' hstep _ _ => ih ?_
    exact fun b hb s'' hstep' => hm b (List.mem_cons_of_mem _ hb) s'' (hstep.trans hstep')

/-- What holds of the result of every turn and goes on to hold, holds of all results. -/
theorem Keeps.mapEach {γ : Type} {l : List β} {m : β → Compile γ} {P : γ → CompilerState → Prop}
    (hP : ∀ b s s', s.Step s' → P b s → P b s')
    (hm : ∀ a ∈ l, ∀ s', s.Step s' → Keeps (m a) s' P) :
    Keeps (mapEach l m) s fun bs s' => bs.length = l.length ∧ ∀ b ∈ bs, P b s' := by
  induction l generalizing s with
  | nil => exact Keeps.pure ⟨rfl, nofun⟩
  | cons a l ih =>
    refine Keeps.bind (hm a List.mem_cons_self s (.refl s)) fun b s₁ h₁ _ hb => ?_
    refine Keeps.bind (ih fun c hc s₂ h₂ =>
      hm c (List.mem_cons_of_mem _ hc) s₂ (h₁.trans h₂)) fun bs s₂ h₂ _ hbs => ?_
    refine Keeps.pure ⟨congrArg (· + 1) hbs.1, ?_⟩
    exact List.forall_mem_cons.mpr ⟨hP b s₁ s₂ h₂ hb, hbs.2⟩

/-- Also where an error is dropped. -/
theorem Keeps.discardErrors {m : Compile (Option α)} {Q : Option α → CompilerState → Prop}
    (hm : Keeps m s Q) (hnone : ∀ s', Q none s') : Keeps (discardErrors m) s Q := by
  intro hs
  have h := hm hs
  unfold Ensures at h ⊢
  unfold Compile.discardErrors Exec.tryCatch
  cases hr : m s with
  | ok a s' =>
    rw [hr] at h
    exact h
  | error e s' =>
    rw [hr] at h
    exact ⟨⟨h.2.cur, h.2.parents⟩, ⟨h.1.cur, h.1.parents⟩, hnone _⟩
  | timeout => trivial

/-! ### A computation that does not step -/

/-- The moves inside a computation that started in `s₀`. -/
def since (s₀ : CompilerState) : Moves CompilerState CompileError where
  rel := fun _ _ => True
  err := fun _ _ s' => s'.Inv ∧ s₀.Step s'
  refl := fun _ => trivial
  trans := fun _ _ => trivial
  absorb := fun _ h => h

/-- A computation that is under way since `s₀` keeps to steps of its own. -/
theorem Keeps.call {s₀ : CompilerState} (hm : Keeps m s Q) (hs : s.Inv) (h₀ : s₀.Step s)
    (hf : ∀ a s', s'.Inv → s.Step s' → Q a s' → Ensures (since s₀) (f a) s' R) :
    Ensures (since s₀) (m >>= f) s R := by
  have h := hm hs
  unfold Ensures at h ⊢
  rw [bind_apply]
  cases hr : m s with
  | ok a s' =>
    rw [hr] at h
    exact hf a s' h.2.1 h.1 h.2.2
  | error e s' =>
    rw [hr] at h
    exact ⟨h.1, h₀.trans h.2⟩
  | timeout => trivial

/-- A computation that ends in a step is one. -/
theorem Keeps.of_since
    (h : s.Inv → Ensures (since s) m s fun a s' => s'.Inv ∧ s.Step s' ∧ Q a s') :
    Keeps m s Q := by
  intro hs
  have h := h hs
  unfold Ensures at h ⊢
  cases hr : m s with
  | ok a s' =>
    rw [hr] at h
    exact ⟨h.2.2.1, h.2.1, h.2.2.2⟩
  | error e s' =>
    rw [hr] at h
    exact h
  | timeout => trivial

end Rules

end Compile

/-! ## Changes of one function -/

namespace FunctionCompiler

variable {fc : FunctionCompiler}

theorem Good.withRegs (h : fc.Good) {ra : RegisterAllocator} (hra : ra.Ok)
    (hmax : fc.regs.max ≤ ra.max) : { fc with regs := ra }.Good := by
  have hw : fc.layout.Wider { fc with regs := ra }.layout :=
    ⟨rfl, rfl, hmax, List.prefix_refl _, List.prefix_refl _⟩
  exact {
    origins := h.origins
    layout := hw.ok h.layout
    regs := hra
    params := Nat.le_trans h.params hmax
    locals := fun v hv => Nat.lt_of_lt_of_le (h.locals v hv) hmax
    captures := h.captures
    loops := fun ctx hctx => (h.loops ctx hctx).mono hw.grows
    result := fun r hr => Nat.lt_of_lt_of_le (h.result r hr) hmax
    nested := h.nested }

theorem Good.withConstants (h : fc.Good) {ks : List Value} (hks : fc.constants <+: ks) :
    { fc with constants := ks }.Good := by
  have hw : fc.layout.Wider { fc with constants := ks }.layout :=
    ⟨rfl, rfl, Nat.le_refl _, hks, List.prefix_refl _⟩
  exact {
    origins := h.origins
    layout := hw.ok h.layout
    regs := h.regs
    params := h.params
    locals := h.locals
    captures := h.captures
    loops := fun ctx hctx => (h.loops ctx hctx).mono hw.grows
    result := h.result
    nested := h.nested }

theorem Good.withNested (h : fc.Good) {p : FunctionProto} (hp : p.WellFormed) :
    { fc with nested := fc.nested ++ [p] }.Good := by
  have hw : fc.layout.Wider { fc with nested := fc.nested ++ [p] }.layout :=
    ⟨rfl, rfl, Nat.le_refl _, List.prefix_refl _, List.prefix_append _ _⟩
  exact {
    origins := h.origins
    layout := hw.ok h.layout
    regs := h.regs
    params := h.params
    locals := h.locals
    captures := h.captures
    loops := fun ctx hctx => (h.loops ctx hctx).mono hw.grows
    result := h.result
    nested := fun q hq => by
      rcases List.mem_append.mp hq with hq | hq
      · exact h.nested q hq
      · rw [List.mem_singleton.mp hq]
        exact hp }

/-- Append an instruction with its hint words. -/
def pushUnit (fc : FunctionCompiler) (w : Instruction) (o : Origin) (hs : List Instruction) :
    FunctionCompiler :=
  { fc with code := fc.code ++ w :: hs
            lines := fc.lines ++ List.replicate (hs.length + 1) fc.curLine
            origins := fc.origins ++ o :: hs.map fun _ => .hint }

theorem layout_pushUnit (h : fc.origins.length = fc.code.length) (w : Instruction) (o : Origin)
    (hs : List Instruction) : (fc.pushUnit w o hs).layout =
      fc.layout.pushUnit w o hs (List.replicate (hs.length + 1) fc.curLine) := by
  have hzip : (fc.code ++ w :: hs).zip (fc.origins ++ o :: hs.map fun _ => Origin.hint) =
      fc.code.zip fc.origins ++ (w, o) :: hs.map (·, Origin.hint) := by
    rw [List.zip_append h.symm, List.zip_cons_cons]
    congr 2
    induction hs with
    | nil => rfl
    | cons x rest ih => simp only [List.map_cons, List.zip_cons_cons, ih]
  simp only [layout, pushUnit, Layout.pushUnit, hzip]

theorem Good.pushUnit (h : fc.Good) {w : Instruction} {o : Origin} {hs : List Instruction}
    (ho : o ≠ .hint)
    (hw : WordOk fc.regs.max fc.constants.length fc.nested.length w o)
    (hjump : w.op.isJump → fc.layout.Boundary w.bx) (hfit : HintsFit fc.constants w hs o)
    (hhs : ∀ x ∈ hs, x.op ∈ [.nop, .loadConstW, .loadCapture] ∧
      WordOk fc.regs.max fc.constants.length fc.nested.length x .hint) :
    (fc.pushUnit w o hs).Good where
  origins := by
    simp only [FunctionCompiler.pushUnit, List.length_append, List.length_cons, List.length_map,
      h.origins]
  layout := by
    rw [layout_pushUnit h.origins]
    exact h.layout.pushUnit ho hw hjump hfit hhs (by simp)
  regs := h.regs
  params := h.params
  locals := h.locals
  captures := h.captures
  loops := fun ctx hctx => by
    rw [layout_pushUnit h.origins]
    exact (h.loops ctx hctx).mono (Layout.pushUnit_grows ho)
  result := h.result
  nested := h.nested

def setTarget (fc : FunctionCompiler) (i hi lo : Nat) : FunctionCompiler :=
  { fc with code := fc.code.modify i fun w => { w with b := hi, c := lo } }

theorem zip_modify {α β : Type} (f : α → α) (xs : List α) :
    ∀ (ys : List β) (i : Nat),
      (xs.modify i f).zip ys = (xs.zip ys).modify i fun x => (f x.1, x.2) := by
  induction xs with
  | nil => intro ys i; cases ys <;> cases i <;> rfl
  | cons x xs ih =>
    intro ys i
    cases ys with
    | nil => cases i <;> rfl
    | cons y ys =>
      cases i with
      | zero => rfl
      | succ i => simp only [List.modify_succ_cons, List.zip_cons_cons, ih]

theorem layout_setTarget (i hi lo : Nat) :
    (fc.setTarget i hi lo).layout = fc.layout.setTarget i hi lo := by
  simp only [layout, setTarget, Layout.setTarget, zip_modify]

theorem Good.setTarget (h : fc.Good) {i hi lo : Nat} (hjump : fc.layout.IsJump i)
    (hhi : hi < 256) (hlo : lo < 256) (ht : fc.layout.Boundary (256 * hi + lo)) :
    (fc.setTarget i hi lo).Good where
  origins := by simpa [FunctionCompiler.setTarget] using h.origins
  layout := by
    rw [layout_setTarget]
    exact h.layout.setTarget hjump hhi hlo ht
  regs := h.regs
  params := h.params
  locals := h.locals
  captures := h.captures
  loops := fun ctx hctx => by
    rw [layout_setTarget]
    exact (h.loops ctx hctx).mono Layout.setTarget_grows
  result := h.result
  nested := h.nested

end FunctionCompiler

end Look
