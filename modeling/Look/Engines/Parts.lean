/-
The parts of a program in the two engines.

A construct of the language is compiled out of the code of its parts, and
interpreted out of the runs of its parts.  This module says what it means that a
part does the same in both engines, so that the modules on single constructs can
assume it of the parts and prove it of the whole.

A `Correspondence` relates a machine that runs one frame with an interpreter.
What it relates is left open: which values correspond, how the variables of the
function are kept, what the outside of the function looks like after an
exception.  It only has to ignore the instruction pointer and the registers that
hold no variable.

`ExprOk` is the contract of a compiled expression.  Its first half is about the
compiler: live registers stay live, and the result is in a register that was not
live or in the home of the variable that the expression is.  Its second half is
about the run: value and exits correspond, and the registers that were live
before are kept, except the homes of the variables that the expression assigns.
`StmtOk` is the contract of a statement and `BlockOk` that of a block.
-/
import Look.Compiler.Effects
import Look.Compiler.Liveness
import Look.Interp.Eval
import Look.Vm.Site

namespace Look

open Exec

/-! ## Assigned variables -/

/-- The code of an expression itself, not that of a function inside it, may
assign the variable `x`. -/
inductive Assigns [DoubleOps] (env : SourceEnv) (x : String) : Expr → Prop
  | variable {op : AssignOp} {object : Option Expr} {value : Expr} :
      Assigns env x (.assign x op object none value)
  /- Storing into null makes an array of the register of the target. -/
  | target {n : String} {op : AssignOp} {key value : Expr} :
      Assigns env x (.assign n op (some (.var x)) (some key) value)
  | value {n : String} {op : AssignOp} {object key : Option Expr} {value : Expr} :
      Assigns env x value → Assigns env x (.assign n op object key value)
  | object {n : String} {op : AssignOp} {object value : Expr} {key : Option Expr} :
      Assigns env x object → Assigns env x (.assign n op (some object) key value)
  | key {n : String} {op : AssignOp} {object : Option Expr} {key value : Expr} :
      Assigns env x key → Assigns env x (.assign n op object (some key) value)
  | step {op : UnaryOp} {pre : Bool} : op = .incr ∨ op = .decr →
      Assigns env x (.unary op (.var x) pre)
  | unary {op : UnaryOp} {e : Expr} {pre : Bool} : Assigns env x e → Assigns env x (.unary op e pre)
  | left {op : BinaryOp} {l r : Expr} : Assigns env x l → Assigns env x (.binary l op r)
  | right {op : BinaryOp} {l r : Expr} : Assigns env x r → Assigns env x (.binary l op r)
  | indexObject {o k : Expr} : Assigns env x o → Assigns env x (.index o k)
  | indexKey {o k : Expr} : Assigns env x k → Assigns env x (.index o k)
  | callee {f : Expr} {args : List Expr} : Assigns env x f → Assigns env x (.call f args)
  | argument {f e : Expr} {args : List Expr} : e ∈ args → Assigns env x e →
      Assigns env x (.call f args)
  | condition {c t e : Expr} : Assigns env x c → Assigns env x (.ternary c t e)
  | thenExpr {c t e : Expr} : Assigns env x t → Assigns env x (.ternary c t e)
  | elseExpr {c t e : Expr} : Assigns env x e → Assigns env x (.ternary c t e)
  | element {e : Expr} {es : List Expr} : e ∈ es → Assigns env x e → Assigns env x (.arrayLit es)
  | pairKey {k v : Expr} {ps : List (Expr × Expr)} : (k, v) ∈ ps → Assigns env x k →
      Assigns env x (.assocLit ps)
  | pairValue {k v : Expr} {ps : List (Expr × Expr)} : (k, v) ∈ ps → Assigns env x v →
      Assigns env x (.assocLit ps)
  | field {n name : String} {e : Expr} {fields : List (String × Expr)} : (n, e) ∈ fields →
      Assigns env x e → Assigns env x (.structLit name fields)
  | member {o : Expr} {field : String} : Assigns env x o → Assigns env x (.member o field)
  | fragment {text source literal : String} {e : Expr} :
      .group source literal ∈ Compile.splitInterp text.length text.toList →
      Compile.fragmentExpr env source = some e → Assigns env x e →
      Assigns env x (.stringLit text false)

/-! ## The function being compiled -/

namespace LoopContext

/-- The jumps that wait for the end of the loop. -/
def pending (ctx : LoopContext) : List Nat := ctx.breakPatches ++ ctx.continuePatches

/-- The context gets jumps from address `n` on. -/
structure Grows (n : Nat) (ctx ctx' : LoopContext) : Prop where
  breaks : ∃ js, ctx'.breakPatches = ctx.breakPatches ++ js ∧ ∀ j ∈ js, n ≤ j
  continues : ∃ js, ctx'.continuePatches = ctx.continuePatches ++ js ∧ ∀ j ∈ js, n ≤ j
  target : ctx'.continueTarget = ctx.continueTarget
  isSwitch : ctx'.isSwitch = ctx.isSwitch
  floor : ctx'.finallyFloor = ctx.finallyFloor

end LoopContext

namespace FunctionCompiler

def pending (fc : FunctionCompiler) : List Nat := fc.loopStack.flatMap LoopContext.pending

/-- The registers are in order, every local has a live register that no release
takes away and belongs to an open scope, and the jumps that wait for a target are there, each in
one list. -/
structure Tidy (fc : FunctionCompiler) : Prop where
  regs : fc.regs.Tidy
  locals : ∀ l ∈ fc.locals, fc.regs.Live l.reg ∧ fc.regs.Guarded l.reg
  depths : ∀ l ∈ fc.locals, l.depth ≤ fc.scopeDepth
  nodup : fc.pending.Nodup
  pending : ∀ i ∈ fc.pending, i < fc.code.length
  switches : ∀ ctx ∈ fc.loopStack, ctx.isSwitch → ctx.continuePatches = []

/-- No local has the register. -/
def Homeless (fc : FunctionCompiler) (r : Nat) : Prop := ∀ l ∈ fc.locals, l.reg ≠ r

/-- Both have the same locals in the same places.  The slot of a local that is
gone may still count as a cell. -/
structure SameNames (fc fc' : FunctionCompiler) : Prop where
  locals : fc'.locals = fc.locals
  boxed : ∀ l ∈ fc.locals, (l.reg ∈ fc'.boxedSlots ↔ l.reg ∈ fc.boxedSlots)

/-- The second has the locals of the first in the same places, and maybe more. -/
structure MoreNames (fc fc' : FunctionCompiler) : Prop where
  locals : fc.locals <:+ fc'.locals
  boxed : ∀ l ∈ fc.locals, (l.reg ∈ fc'.boxedSlots ↔ l.reg ∈ fc.boxedSlots)

section Names

variable {fc fc₁ fc₂ fc₃ : FunctionCompiler}

theorem SameNames.refl (fc : FunctionCompiler) : fc.SameNames fc := ⟨rfl, fun _ _ => .rfl⟩

theorem SameNames.trans (h : fc₁.SameNames fc₂) (h' : fc₂.SameNames fc₃) : fc₁.SameNames fc₃ where
  locals := h'.locals.trans h.locals
  boxed := fun l hl => (h'.boxed l (h.locals ▸ hl)).trans (h.boxed l hl)

theorem SameNames.symm (h : fc₁.SameNames fc₂) : fc₂.SameNames fc₁ where
  locals := h.locals.symm
  boxed := fun l hl => (h.boxed l (h.locals ▸ hl)).symm

theorem SameNames.more (h : fc₁.SameNames fc₂) : fc₁.MoreNames fc₂ where
  locals := h.locals ▸ List.suffix_refl _
  boxed := h.boxed

theorem MoreNames.refl (fc : FunctionCompiler) : fc.MoreNames fc := (SameNames.refl fc).more

theorem MoreNames.trans (h : fc₁.MoreNames fc₂) (h' : fc₂.MoreNames fc₃) : fc₁.MoreNames fc₃ where
  locals := h.locals.trans h'.locals
  boxed := fun l hl => (h'.boxed l (h.locals.subset hl)).trans (h.boxed l hl)

end Names

/-- The second function has the constants, functions and registers of the first. -/
structure Tables (fc fc' : FunctionCompiler) : Prop where
  constants : fc.constants <+: fc'.constants
  nested : fc.nested <+: fc'.nested
  max : fc.regs.max ≤ fc'.regs.max

theorem Tables.refl (fc : FunctionCompiler) : fc.Tables fc :=
  ⟨List.prefix_refl _, List.prefix_refl _, Nat.le_refl _⟩

theorem Tables.trans {fc₁ fc₂ fc₃ : FunctionCompiler} (h : fc₁.Tables fc₂) (h' : fc₂.Tables fc₃) :
    fc₁.Tables fc₃ :=
  ⟨h.constants.trans h'.constants, h.nested.trans h'.nested, Nat.le_trans h.max h'.max⟩

end FunctionCompiler

/-- An assignment to the name would declare a local. -/
def CompilerState.declares (s : CompilerState) (n : String) : Bool :=
  (s.cur.lookupVar n).isNone && (!s.parents.isEmpty ||
    (0 < s.cur.loopDepth && !s.cur.outerGlobals.contains n &&
      (s.cur.noDiscovery || s.cur.boxedNames.contains n)))

/-! ## The frame that runs the code -/

namespace Site

/-- The frame has the words `code` from address `a` up to address `b`. -/
def Carries (x : Site) (code : List Instruction) (a b : Nat) : Prop :=
  ∀ i, a ≤ i → i < b → x.code[i]? = code[i]?

/-- The frame has the constants, functions and registers of the compiler. -/
structure Covers (x : Site) (fc : FunctionCompiler) : Prop where
  constants : fc.constants <+: x.frame.proto.constants
  nested : fc.nested <+: x.frame.proto.nested
  regs : fc.regs.max ≤ x.frame.proto.regCount

theorem Covers.of_tables {x : Site} {fc fc' : FunctionCompiler} (h : x.Covers fc')
    (hg : fc.Tables fc') : x.Covers fc :=
  ⟨hg.constants.trans h.constants, hg.nested.trans h.nested, Nat.le_trans hg.max h.regs⟩

theorem Covers.lt {x : Site} {fc : FunctionCompiler} (h : x.Covers fc) (ht : fc.Tidy) {r : Nat}
    (hr : fc.regs.Live r) : r < x.frame.proto.regCount :=
  Nat.lt_of_lt_of_le (hr.lt_max ht.regs) h.regs

variable [DoubleOps]

/-- The machine follows a run of the interpreter: to a configuration with `Q`
when it returns, and to one with `exit` when it throws. -/
def Sim (x : Site) (exit : Signal → Config → InterpState → Prop) (c : Config) {α : Type}
    (Q : α → Config → InterpState → Prop) : Res InterpState Signal α → Prop
  | .ok a σ => Reaches (Config.Steps x.machine) c fun c' => Q a c' σ
  | .error e σ => Reaches (Config.Steps x.machine) c fun c' => exit e c' σ
  | .timeout => True

variable {x : Site} {exit exit' : Signal → Config → InterpState → Prop} {c c₁ : Config}
  {σ : InterpState} {α β : Type}
  {Q Q' : α → Config → InterpState → Prop} {m : Interp α} {f : α → Interp β}
  {T : β → Config → InterpState → Prop}

theorem Sim.pure {a : α} (h : Q a c σ) : x.Sim exit c Q ((Pure.pure a : Interp α) σ) :=
  .here h

theorem Sim.throw {e : Signal} (h : exit e c σ) : x.Sim exit c Q (throw e σ) := .here h

theorem Sim.bind (hm : x.Sim exit c Q (m σ))
    (hf : ∀ a c' σ', Q a c' σ' → x.Sim exit c' T (f a σ')) : x.Sim exit c T ((m >>= f) σ) := by
  rw [bind_apply]
  cases hr : m σ with
  | ok a σ' =>
    rw [hr] at hm
    obtain ⟨c', hc, hq⟩ := hm
    have hrest := hf a c' σ' hq
    simp only
    cases hfa : f a σ' with
    | ok b σ'' =>
      rw [hfa] at hrest
      obtain ⟨c'', hc', ht⟩ := hrest
      exact ⟨c'', hc.trans hc', ht⟩
    | error e σ'' =>
      rw [hfa] at hrest
      obtain ⟨c'', hc', ht⟩ := hrest
      exact ⟨c'', hc.trans hc', ht⟩
    | timeout => trivial
  | error e σ' =>
    rw [hr] at hm
    exact hm
  | timeout => trivial

/-- The machine moves first. -/
theorem Sim.step {r : Res InterpState Signal α} (hs : c.Steps x.machine c₁)
    (h : x.Sim exit c₁ Q r) : x.Sim exit c Q r := by
  cases r with
  | ok a σ => exact Reaches.head hs h
  | error e σ => exact Reaches.head hs h
  | timeout => trivial

theorem Sim.mono {r : Res InterpState Signal α} (h : x.Sim exit c Q r)
    (hq : ∀ a c' σ', Q a c' σ' → Q' a c' σ') (he : ∀ e c' σ', exit e c' σ' → exit' e c' σ') :
    x.Sim exit' c Q' r := by
  cases r with
  | ok a σ => exact Reaches.mono h fun c' => hq a c' σ
  | error e σ => exact Reaches.mono h fun c' => he e c' σ
  | timeout => trivial

/-- The machine goes on when the interpreter has returned. -/
theorem Sim.goOn {r : Res InterpState Signal α} (h : x.Sim exit c Q r)
    (hq : ∀ a c' σ', Q a c' σ' → Reaches (Config.Steps x.machine) c' fun c'' => Q' a c'' σ') :
    x.Sim exit c Q' r := by
  cases r with
  | ok a σ => exact Reaches.bind h fun c' => hq a c' σ
  | error e σ => exact h
  | timeout => trivial

/-- A handler of the interpreter catches what the machine has turned into a
jump. -/
theorem Sim.tryCatch {h : Signal → Interp α} (hm : x.Sim exit' c Q (m σ))
    (hh : ∀ e c' σ', exit' e c' σ' → x.Sim exit c' Q (h e σ')) :
    x.Sim exit c Q (tryCatch m h σ) := by
  unfold Exec.tryCatch
  cases hr : m σ with
  | ok a σ' =>
    rw [hr] at hm
    exact hm
  | error e σ' =>
    rw [hr] at hm
    obtain ⟨c', hc, he⟩ := hm
    have hrest := hh e c' σ' he
    simp only
    cases hhe : h e σ' with
    | ok a σ'' =>
      rw [hhe] at hrest
      obtain ⟨c'', hc', hq⟩ := hrest
      exact ⟨c'', hc.trans hc', hq⟩
    | error e' σ'' =>
      rw [hhe] at hrest
      obtain ⟨c'', hc', hq⟩ := hrest
      exact ⟨c'', hc.trans hc', hq⟩
    | timeout => trivial
  | timeout => trivial

end Site

/-! ## Correspondences -/

/-- How the engines correspond while one frame runs: their values, their states
with the variables where the compiler has put them, and their exits. -/
structure Correspondence [DoubleOps] where
  site : Site
  value : Value → Value → Prop
  state : FunctionCompiler → Config → InterpState → Prop
  exit : Signal → Config → InterpState → Prop
  eq : ∀ {a a' b b'}, value a a' → value b b' → a.eq b = a'.eq b'
  names : ∀ {fc fc' c σ}, fc.SameNames fc' → state fc c σ → state fc' c σ
  jump : ∀ {fc c σ} (t : Nat), state fc c σ → state fc (site.jump t c) σ
  write : ∀ {fc c σ r} (v : Value), fc.Homeless r → state fc c σ → state fc (site.write r v c) σ

/-- Where the jumps of an enclosing loop or `switch` lead, and how many `finally`
blocks were pending there. -/
structure LoopTarget where
  breakTo : Nat
  continueTo : Nat
  isSwitch : Bool
  finallyFloor : Nat

/-- The target is one for the loop that the compiler is in. -/
structure LoopTarget.Fits (ctx : LoopContext) (t : LoopTarget) : Prop where
  isSwitch : t.isSwitch = ctx.isSwitch
  floor : t.finallyFloor = ctx.finallyFloor
  continueTo : ∀ a, ctx.continueTarget = some a → t.continueTo = a

namespace Instruction

/-- The word at address `i` once the enclosing loops have patched it. -/
def resolve (i : Nat) (w : Instruction) : List LoopContext → List LoopTarget → Instruction
  | ctx :: loops, t :: ts =>
    if i ∈ ctx.breakPatches then w.withTarget t.breakTo
    else if i ∈ ctx.continuePatches then w.withTarget t.continueTo
    else w.resolve i loops ts
  | _, _ => w

end Instruction

/-- The frame has the words of the compiler from address `a` up to address `b`,
with the targets `ts` for the jumps of the enclosing loops. -/
def Site.CarriesUpTo (x : Site) (ts : List LoopTarget) (fc : FunctionCompiler) (a b : Nat) : Prop :=
  ∀ i w, a ≤ i → i < b → fc.code[i]? = some w → x.code[i]? = some (w.resolve i fc.loopStack ts)

namespace Correspondence

variable [DoubleOps] (K : Correspondence)

/-- The machine is at an address with the variables of `fc` in place. -/
def Here (ip : Nat) (fc : FunctionCompiler) (c : Config) (σ : InterpState) : Prop :=
  K.site.At ip c ∧ K.state fc c σ

/-- The machine is about to leave for the address `target`: it runs the `finally`
blocks that are pending above `floor`, and jumps.  Variables that satisfy `names`
are in place. -/
def Leaving (names : FunctionCompiler → Prop) (finallys : List PendingFinally)
    (floor target : Nat) (c : Config) (σ : InterpState) : Prop :=
  ∃ rec ts s s' fc, names fc ∧ K.Here s.cur.code.length fc c σ ∧ s.cur.Tidy ∧
    s.cur.pendingFinally = finallys ∧ Compile.emitPendingFinallys rec floor s = .ok () s' ∧
    List.Forall₂ LoopTarget.Fits s'.cur.loopStack ts ∧
    K.site.CarriesUpTo ts s'.cur s.cur.code.length s'.cur.code.length ∧ K.site.Covers s'.cur ∧
    K.site.code[s'.cur.code.length]? = some (Instruction.withTarget ⟨.jump, 0, 0, 0⟩ target)

/-- Where the machine is when code is left by a signal. -/
def leave (ts : List LoopTarget) (names : FunctionCompiler → Prop)
    (finallys : List PendingFinally) (e : Signal) (c : Config) (σ : InterpState) : Prop :=
  match e with
  | .break => match ts with
    | t :: _ => K.Leaving names finallys t.finallyFloor t.breakTo c σ
    | [] => K.exit e c σ
  | .continue => match ts.dropWhile LoopTarget.isSwitch with
    | t :: _ => K.Leaving names finallys t.finallyFloor t.continueTo c σ
    | [] => K.exit e c σ
  | e => K.exit e c σ

/-- An expression is left by an exception, never by `break` or `continue`. -/
def raise (e : Signal) (c : Config) (σ : InterpState) : Prop :=
  K.exit e c σ ∧ e ≠ .break ∧ e ≠ .continue

/-- The temporaries that were live are as they were. -/
def KeepsTemps (fc : FunctionCompiler) (c c' : Config) : Prop :=
  ∀ q, fc.regs.Live q → fc.Homeless q → K.site.reg c' q = K.site.reg c q

/-- The registers that were live are as they were, except the destination and the
homes of the variables that the expression assigns. -/
def Keeps (env : SourceEnv) (e : Expr) (dest : Option Nat) (fc : FunctionCompiler)
    (c c' : Config) : Prop :=
  ∀ q, fc.regs.Live q → dest ≠ some q →
    (∀ n, Assigns env n e → fc.lookupVar n ≠ some (.register q)) →
    K.site.reg c' q = K.site.reg c q

end Correspondence

/-! ## Contracts -/

section Contracts

variable [DoubleOps] (K : Correspondence) (env : SourceEnv) (rec : Rec) (irec : InterpRec)

/-- What compiling an expression does to the compiler. -/
structure ExprPost (e : Expr) (dest : Option Nat) (s s' : CompilerState) (r : Nat) : Prop where
  tidy : s'.cur.Tidy
  code : s.cur.code <+: s'.cur.code
  tables : s.cur.Tables s'.cur
  loops : s'.cur.loopStack = s.cur.loopStack
  live : ∀ q, s.cur.regs.Live q → s'.cur.regs.Live q
  homeless : ∀ q, s.cur.regs.Live q → s.cur.Homeless q → s'.cur.Homeless q
  lookup : ∀ n loc, s.cur.lookupVar n = some loc → s'.cur.lookupVar n = some loc
  more : s.cur.MoreNames s'.cur
  finallys : s'.cur.pendingFinally = s.cur.pendingFinally
  names : (∀ n, Assigns env n e → s.declares n = false) → s.cur.SameNames s'.cur
  settled : ∀ n, s.declares n = false → s'.declares n = false
  result : s'.cur.regs.Live r
  fresh : dest = none → (¬s.cur.regs.Live r ∧ s'.cur.Homeless r) ∨
    ∃ n, e = .var n ∧ s.cur.lookupVar n = some (.register r)

/-- The destination of an expression is a live register of no local. -/
def DestLive (dest : Option Nat) (fc : FunctionCompiler) : Prop :=
  ∀ r, dest = some r → fc.regs.Live r ∧ fc.Homeless r

/-- The run of the code of an expression from `fc` to `fc'`, with its result in
register `r`. -/
def ExprRuns (e : Expr) (dest : Option Nat) (fc fc' : FunctionCompiler) (r : Nat) : Prop :=
  K.site.Carries fc'.code fc.code.length fc'.code.length → K.site.Covers fc' →
  ∀ c σ, K.Here fc.code.length fc c σ →
    K.site.Sim K.raise c (fun v c' σ' => K.Here fc'.code.length fc' c' σ' ∧
      (∃ v', K.site.reg c' r = some v' ∧ K.value v' v) ∧ K.Keeps env e dest fc c c')
      (irec.eval e σ)

/-- The expression does the same in both engines. -/
def ExprOk (e : Expr) : Prop :=
  ∀ s dest r s', s.cur.Tidy → DestLive dest s.cur → rec.expr e dest s = .ok r s' →
    ExprPost env e dest s s' r ∧ ExprRuns K env irec e dest s.cur s'.cur r

/-- The compiler has gone on from `s` to `s'`: what was live is live, and no
local has taken a register that was in use. -/
structure CompilerState.KeepsLife (s s' : CompilerState) : Prop where
  live : ∀ q, s.cur.regs.Live q → s'.cur.regs.Live q
  homeless : ∀ q, s.cur.regs.Live q → s.cur.Homeless q → s'.cur.Homeless q

/-- The compiler has gone on from `s` to `s'`, and may have patched jumps. -/
structure Progress (s s' : CompilerState) : Prop extends s.KeepsLife s' where
  tidy : s'.cur.Tidy
  length : s.cur.code.length ≤ s'.cur.code.length
  tables : s.cur.Tables s'.cur
  loops : List.Forall₂ (LoopContext.Grows s.cur.code.length) s.cur.loopStack s'.cur.loopStack
  lookup : ∀ n loc, s.cur.lookupVar n = some loc → s'.cur.lookupVar n = some loc
  more : s.cur.MoreNames s'.cur
  finallys : s'.cur.pendingFinally = s.cur.pendingFinally
  settled : ∀ n, s.declares n = false → s'.declares n = false

/-- What compiling a statement does to the compiler. -/
structure StmtPost (s s' : CompilerState) : Prop extends Progress s s' where
  code : s.cur.code <+: s'.cur.code

/-- The run of code which the interpreter runs as `m`, from `fc` to `fc'`, with
variables that satisfy `names` when it is left by a jump. -/
def CodeRuns (names : FunctionCompiler → Prop) (m : Interp Unit) (fc fc' : FunctionCompiler) :
    Prop :=
  ∀ ts, List.Forall₂ LoopTarget.Fits fc.loopStack ts →
    K.site.CarriesUpTo ts fc' fc.code.length fc'.code.length → K.site.Covers fc' →
    ∀ c σ, K.Here fc.code.length fc c σ →
      K.site.Sim (fun e c' σ' => K.leave ts names fc.pendingFinally e c' σ' ∧
          (e = .break ∨ e = .continue → K.KeepsTemps fc c c')) c
        (fun _ c' σ' => K.Here fc'.code.length fc' c' σ' ∧ K.KeepsTemps fc c c') (m σ)

/-- The run of a statement: a jump out of it may come from behind a variable that
it declares. -/
def StmtRuns (m : Interp Unit) (fc fc' : FunctionCompiler) : Prop :=
  CodeRuns K fc.MoreNames m fc fc'

/-- A statement that the compiler translates as `k` and the interpreter runs as
`m` does the same in both engines, where the blocks `finallys` are pending. -/
def StmtOk (finallys : List PendingFinally) (k : Compile Unit) (m : Interp Unit) : Prop :=
  ∀ s s', s.cur.Tidy → s.cur.pendingFinally = finallys → k s = .ok () s' →
    StmtPost s s' ∧ StmtRuns K m s.cur s'.cur

/-- The block does the same in both engines, and its variables are gone behind
it, also when a jump leaves it. -/
def BlockOk (finallys : List PendingFinally) (body : Block) : Prop :=
  ∀ s s', s.cur.Tidy → s.cur.pendingFinally = finallys →
    Compile.compileBlock rec body s = .ok () s' →
    StmtPost s s' ∧ s.cur.SameNames s'.cur ∧
      CodeRuns K s.cur.SameNames (Interp.execBlock irec body) s.cur s'.cur

end Contracts

/-! ## Sequences of compiler steps -/

namespace LoopContext

theorem Grows.refl (n : Nat) (ctx : LoopContext) : ctx.Grows n ctx :=
  ⟨⟨[], by simp, by simp⟩, ⟨[], by simp, by simp⟩, rfl, rfl, rfl⟩

theorem Grows.trans {n n' : Nat} {ctx₁ ctx₂ ctx₃ : LoopContext} (h : ctx₁.Grows n ctx₂)
    (hn : n ≤ n') (h' : ctx₂.Grows n' ctx₃) : ctx₁.Grows n ctx₃ := by
  obtain ⟨⟨bs, hb, hbs⟩, ⟨cs, hc, hcs⟩, ht, hs, hf⟩ := h
  obtain ⟨⟨bs', hb', hbs'⟩, ⟨cs', hc', hcs'⟩, ht', hs', hf'⟩ := h'
  refine ⟨⟨bs ++ bs', ?_, ?_⟩, ⟨cs ++ cs', ?_, ?_⟩, ht'.trans ht, hs'.trans hs, hf'.trans hf⟩
  · rw [hb', hb, List.append_assoc]
  · intro j hj
    rcases List.mem_append.mp hj with hj | hj
    · exact hbs j hj
    · exact Nat.le_trans hn (hbs' j hj)
  · rw [hc', hc, List.append_assoc]
  · intro j hj
    rcases List.mem_append.mp hj with hj | hj
    · exact hcs j hj
    · exact Nat.le_trans hn (hcs' j hj)

theorem Grows.mem_breaks {n i : Nat} {ctx ctx' : LoopContext} (h : ctx.Grows n ctx') (hi : i < n) :
    i ∈ ctx'.breakPatches ↔ i ∈ ctx.breakPatches := by
  obtain ⟨js, heq, hjs⟩ := h.breaks
  rw [heq, List.mem_append, or_iff_left]
  intro hmem
  have := hjs i hmem
  omega

theorem Grows.mem_continues {n i : Nat} {ctx ctx' : LoopContext} (h : ctx.Grows n ctx')
    (hi : i < n) : i ∈ ctx'.continuePatches ↔ i ∈ ctx.continuePatches := by
  obtain ⟨js, heq, hjs⟩ := h.continues
  rw [heq, List.mem_append, or_iff_left]
  intro hmem
  have := hjs i hmem
  omega

/-- The loops of the second function are those of the first, with more jumps. -/
abbrev AllGrow (n : Nat) (ctxs ctxs' : List LoopContext) : Prop :=
  List.Forall₂ (LoopContext.Grows n) ctxs ctxs'

theorem AllGrow.refl (n : Nat) (ctxs : List LoopContext) : AllGrow n ctxs ctxs :=
  List.forall₂_same.mpr fun ctx _ => .refl n ctx

theorem AllGrow.trans {n n' : Nat} {ctxs₁ ctxs₂ ctxs₃ : List LoopContext}
    (h : AllGrow n ctxs₁ ctxs₂) (hn : n ≤ n') (h' : AllGrow n' ctxs₂ ctxs₃) :
    AllGrow n ctxs₁ ctxs₃ := by
  induction h generalizing ctxs₃ with
  | nil =>
    cases h'
    exact .nil
  | cons hc _ ih =>
    cases h' with
    | cons hc' hrest => exact .cons (hc.trans hn hc') (ih hrest)

/-- The targets of a loop fit it when it has got more jumps. -/
theorem AllGrow.fits {n : Nat} {ctxs ctxs' : List LoopContext} (h : AllGrow n ctxs ctxs')
    {ts : List LoopTarget} (hts : List.Forall₂ LoopTarget.Fits ctxs ts) :
    List.Forall₂ LoopTarget.Fits ctxs' ts := by
  induction h generalizing ts with
  | nil => exact hts
  | cons hc _ ih =>
    obtain ⟨t, ts', ht, hts', rfl⟩ := List.forall₂_cons_left_iff.mp hts
    refine .cons ⟨ht.isSwitch.trans hc.isSwitch.symm, ht.floor.trans hc.floor.symm, ?_⟩ (ih hts')
    rw [hc.target]
    exact ht.continueTo

/-- Jumps that are added later change nothing for the words before them. -/
theorem AllGrow.resolve {n i : Nat} {ctxs ctxs' : List LoopContext} (h : AllGrow n ctxs ctxs')
    (hi : i < n) (w : Instruction) (ts : List LoopTarget) :
    w.resolve i ctxs' ts = w.resolve i ctxs ts := by
  induction h generalizing ts with
  | nil => rfl
  | cons hc _ ih =>
    cases ts with
    | nil => rfl
    | cons t ts =>
      simp only [Instruction.resolve, hc.mem_breaks hi, hc.mem_continues hi, ih]

theorem AllGrow.weaken {n n' : Nat} {ctxs ctxs' : List LoopContext} (h : AllGrow n ctxs ctxs')
    (hn : n' ≤ n) : AllGrow n' ctxs ctxs' :=
  (AllGrow.refl n' ctxs).trans hn h

/-- A word that waits for no loop does not wait for one later. -/
theorem AllGrow.notMem {n i : Nat} {ctxs ctxs' : List LoopContext} (h : AllGrow n ctxs ctxs')
    (hi : i < n) (hnot : i ∉ ctxs.flatMap LoopContext.pending) :
    i ∉ ctxs'.flatMap LoopContext.pending := by
  induction h with
  | nil => exact hnot
  | cons hc _ ih =>
    simp only [List.flatMap_cons, List.mem_append, not_or, LoopContext.pending] at hnot ⊢
    rw [hc.mem_breaks hi, hc.mem_continues hi]
    exact ⟨hnot.1, ih hnot.2⟩

end LoopContext

theorem Instruction.resolve_of_notMem {i : Nat} {ctxs : List LoopContext}
    (h : i ∉ ctxs.flatMap LoopContext.pending) (w : Instruction) (ts : List LoopTarget) :
    w.resolve i ctxs ts = w := by
  induction ctxs generalizing ts with
  | nil => rfl
  | cons ctx ctxs ih =>
    cases ts with
    | nil => rfl
    | cons t ts =>
      simp only [List.flatMap_cons, List.mem_append, not_or, LoopContext.pending] at h
      rw [Instruction.resolve, if_neg h.1.1, if_neg h.1.2]
      exact ih h.2 ts

namespace Progress

variable {s s₁ s₂ s₃ : CompilerState}

theorem refl (ht : s.cur.Tidy) : Progress s s where
  tidy := ht
  length := Nat.le_refl _
  tables := .refl _
  loops := LoopContext.AllGrow.refl _ _
  live := fun _ h => h
  homeless := fun _ _ h => h
  lookup := fun _ _ h => h
  more := .refl _
  finallys := rfl
  settled := fun _ h => h

theorem trans (h : Progress s₁ s₂) (h' : Progress s₂ s₃) : Progress s₁ s₃ where
  tidy := h'.tidy
  length := Nat.le_trans h.length h'.length
  tables := h.tables.trans h'.tables
  loops := LoopContext.AllGrow.trans h.loops h.length h'.loops
  live := fun q hq => h'.live q (h.live q hq)
  homeless := fun q hq hn => h'.homeless q (h.live q hq) (h.homeless q hq hn)
  lookup := fun n loc hn => h'.lookup n loc (h.lookup n loc hn)
  more := h.more.trans h'.more
  finallys := h'.finallys.trans h.finallys
  settled := fun n hn => h'.settled n (h.settled n hn)

end Progress

namespace StmtPost

variable {s s₁ s₂ s₃ : CompilerState}

theorem refl (ht : s.cur.Tidy) : StmtPost s s := { Progress.refl ht with code := List.prefix_refl _ }

theorem trans (h : StmtPost s₁ s₂) (h' : StmtPost s₂ s₃) : StmtPost s₁ s₃ :=
  { h.toProgress.trans h'.toProgress with code := h.code.trans h'.code }

end StmtPost

theorem ExprPost.stmtPost [DoubleOps] {env : SourceEnv} {e : Expr} {dest : Option Nat} {r : Nat}
    {s s' : CompilerState} (h : ExprPost env e dest s s' r) : StmtPost s s' where
  tidy := h.tidy
  length := h.code.length_le
  code := h.code
  tables := h.tables
  loops := h.loops ▸ LoopContext.AllGrow.refl _ _
  live := h.live
  homeless := h.homeless
  lookup := h.lookup
  more := h.more
  finallys := h.finallys
  settled := h.settled

namespace CompilerState

/-- The compiler has emitted words, added constants and moved registers, and
nothing else. -/
def Emits (s s' : CompilerState) : Prop :=
  ∃ code lines origins regs constants, s.cur.constants <+: constants ∧
    s' = { s with cur := { s.cur with code := code, lines := lines, origins := origins,
                                      regs := regs, constants := constants } }

namespace Emits

variable {s s₁ s₂ : CompilerState}

theorem refl (s : CompilerState) : s.Emits s := ⟨_, _, _, _, _, List.prefix_refl _, rfl⟩

theorem trans (h : s.Emits s₁) (h' : s₁.Emits s₂) : s.Emits s₂ := by
  obtain ⟨_, _, _, _, _, hc, rfl⟩ := h
  obtain ⟨_, _, _, _, _, hc', rfl⟩ := h'
  exact ⟨_, _, _, _, _, hc.trans hc', rfl⟩

theorem push (h : s.Emits s₁) (w : Instruction) (o : Origin) : s.Emits (s₁.push w o) :=
  h.trans ⟨_, _, _, _, _, List.prefix_refl _, rfl⟩

theorem withRegs (h : s.Emits s₁) (ra : RegisterAllocator) : s.Emits (s₁.withRegs ra) :=
  h.trans ⟨_, _, _, _, _, List.prefix_refl _, rfl⟩

theorem names (h : s.Emits s₁) : s.cur.SameNames s₁.cur := by
  obtain ⟨_, _, _, _, _, -, rfl⟩ := h
  exact ⟨rfl, fun _ _ => .rfl⟩

theorem loops (h : s.Emits s₁) : s₁.cur.loopStack = s.cur.loopStack := by
  obtain ⟨_, _, _, _, _, -, rfl⟩ := h
  rfl

theorem finallys (h : s.Emits s₁) : s₁.cur.pendingFinally = s.cur.pendingFinally := by
  obtain ⟨_, _, _, _, _, -, rfl⟩ := h
  rfl

theorem depth (h : s.Emits s₁) : s₁.cur.scopeDepth = s.cur.scopeDepth := by
  obtain ⟨_, _, _, _, _, -, rfl⟩ := h
  rfl

theorem lookup (h : s.Emits s₁) (n : String) : s₁.cur.lookupVar n = s.cur.lookupVar n := by
  obtain ⟨_, _, _, _, _, -, rfl⟩ := h
  rfl

theorem declares (h : s.Emits s₁) (n : String) : s₁.declares n = s.declares n := by
  obtain ⟨_, _, _, _, _, -, rfl⟩ := h
  rfl

/-- Emitting words keeps everything in order when the registers are: the locals
are guarded, so it is enough that guarded registers stay live. -/
theorem tidy (h : s.Emits s₁) (ht : s.cur.Tidy) (hcode : s.cur.code.length ≤ s₁.cur.code.length)
    (hr : s₁.cur.regs.Tidy) (hg : s.cur.regs.SameGuards s₁.cur.regs)
    (hlive : ∀ q, s.cur.regs.Live q → s.cur.regs.Guarded q → s₁.cur.regs.Live q) :
    s₁.cur.Tidy where
  regs := hr
  locals := fun l hl => by
    rw [h.names.locals] at hl
    have hl' := ht.locals l hl
    exact ⟨hlive _ hl'.1 hl'.2, hg.guarded.mpr hl'.2⟩
  depths := fun l hl => by
    rw [h.names.locals] at hl
    rw [h.depth]
    exact ht.depths l hl
  nodup := by
    unfold FunctionCompiler.pending
    rw [h.loops]
    exact ht.nodup
  pending := fun i hi => by
    unfold FunctionCompiler.pending at hi
    rw [h.loops] at hi
    exact Nat.lt_of_lt_of_le (ht.pending i hi) hcode
  switches := fun ctx hctx => ht.switches ctx (h.loops ▸ hctx)

theorem tables (h : s.Emits s₁) (hmax : s.cur.regs.max ≤ s₁.cur.regs.max) :
    s.cur.Tables s₁.cur := by
  obtain ⟨_, _, _, _, _, hc, rfl⟩ := h
  exact ⟨hc, List.prefix_refl _, hmax⟩

theorem progress (h : s.Emits s₁) (ht : s.cur.Tidy)
    (hcode : s.cur.code.length ≤ s₁.cur.code.length) (hr : s₁.cur.regs.Tidy)
    (hmax : s.cur.regs.max ≤ s₁.cur.regs.max) (hg : s.cur.regs.SameGuards s₁.cur.regs)
    (hlive : ∀ q, s.cur.regs.Live q → s₁.cur.regs.Live q) : Progress s s₁ where
  tidy := h.tidy ht hcode hr hg fun q hq _ => hlive q hq
  length := hcode
  tables := h.tables hmax
  loops := h.loops ▸ LoopContext.AllGrow.refl _ _
  live := hlive
  homeless := fun q _ hq l hl => hq l (h.names.locals ▸ hl)
  lookup := fun n loc hn => by rw [h.lookup, hn]
  more := h.names.more
  finallys := h.finallys
  settled := fun n hn => by rw [h.declares, hn]

end Emits

end CompilerState

namespace FunctionCompiler

/-- A name that is in a register is a local. -/
theorem mem_of_lookupVar {fc : FunctionCompiler} {n : String} {q : Nat}
    (h : fc.lookupVar n = some (.register q)) : ∃ l ∈ fc.locals, l.reg = q := by
  unfold lookupVar at h
  split at h
  · rename_i l hfind
    cases h
    exact ⟨l, List.mem_of_find?_eq_some hfind, rfl⟩
  · simp at h

theorem SameNames.lookupVar {fc fc' : FunctionCompiler} (h : fc.SameNames fc') {n : String}
    {q : Nat} : fc'.lookupVar n = some (.register q) ↔ fc.lookupVar n = some (.register q) := by
  unfold FunctionCompiler.lookupVar
  rw [h.locals]
  cases fc.locals.find? (·.name = n) with
  | some l => rfl
  | none => simp

end FunctionCompiler

namespace StmtPost

variable {s s₁ s₂ : CompilerState}

/-- Words and constants that move no register. -/
theorem emits (h : StmtPost s s₁) (hem : s₁.Emits s₂) (hcode : s₁.cur.code <+: s₂.cur.code)
    (hr : s₂.cur.regs = s₁.cur.regs) : StmtPost s s₂ :=
  h.trans { hem.progress h.tidy hcode.length_le (hr ▸ h.tidy.regs) (Nat.le_of_eq (hr ▸ rfl))
      (hr ▸ ⟨rfl, rfl, rfl⟩) (hr ▸ fun _ hq => hq) with code := hcode }

theorem push (h : StmtPost s s₁) (w : Instruction) (o : Origin) : StmtPost s (s₁.push w o) :=
  h.emits ((CompilerState.Emits.refl s₁).push w o) (List.prefix_append _ _) rfl

/-- A temporary more. -/
theorem alloc (h : StmtPost s s₁) {r : Nat} {ra : RegisterAllocator}
    (ha : s₁.cur.regs.alloc = .ok (r, ra)) : StmtPost s (s₁.withRegs ra) := by
  obtain ⟨hal, hguards⟩ := RegisterAllocator.alloc_allocated h.tidy.regs ha
  exact h.trans { ((CompilerState.Emits.refl s₁).withRegs ra).progress h.tidy (Nat.le_refl _)
    hal.tidy hal.max hguards hal.keeps with code := List.prefix_refl _ }

/-- A temporary from behind `s`, or the home of a local, is released. -/
theorem release (h : StmtPost s s₁) {r : Nat} (hr : s₁.cur.regs.Live r)
    (hd : ¬s.cur.regs.Live r ∨ s₁.cur.regs.Guarded r) :
    StmtPost s (s₁.withRegs (s₁.cur.regs.release r)) := by
  have hem : s₁.Emits (s₁.withRegs (s₁.cur.regs.release r)) :=
    (CompilerState.Emits.refl s₁).withRegs _
  have hguards : s₁.cur.regs.SameGuards (s₁.cur.regs.release r) := RegisterAllocator.release_guards
  have htidy := RegisterAllocator.release_tidy h.tidy.regs hr.1
  exact
    { tidy := hem.tidy h.tidy (Nat.le_refl _) htidy hguards fun q hq hg => hq.release (.inr hg)
      length := h.length
      code := h.code
      tables := h.tables.trans (hem.tables (Nat.le_of_eq RegisterAllocator.release_max.symm))
      loops := h.loops
      live := fun q hq => by
        refine (h.live q hq).release ?_
        by_cases hqr : q = r
        · subst hqr
          exact .inr (hd.resolve_left fun hn => hn hq)
        · exact .inl hqr
      homeless := h.homeless
      lookup := h.lookup
      more := h.more.trans hem.names.more
      finallys := h.finallys
      settled := h.settled }

end StmtPost

namespace ExprPost

variable [DoubleOps] {env : SourceEnv} {e : Expr} {dest : Option Nat} {r : Nat}
  {s s₁ s₂ : CompilerState}

/-- The result of an expression may be released later on. -/
theorem disposable (h : ExprPost env e none s s₁ r) (hp : Progress s₁ s₂) :
    ¬s.cur.regs.Live r ∨ s₂.cur.regs.Guarded r := by
  rcases h.fresh rfl with ⟨hfresh, -⟩ | ⟨n, -, hn⟩
  · exact .inl hfresh
  · -- The value is a bare local, whose register is guarded.
    obtain ⟨l, hl, rfl⟩ := FunctionCompiler.mem_of_lookupVar (hp.lookup n _ (h.lookup n _ hn))
    exact .inr (hp.tidy.locals l hl).2

end ExprPost

namespace Correspondence

variable [DoubleOps] {K : Correspondence} {s s₁ : CompilerState} {c c₁ c₂ : Config}

theorem KeepsTemps.refl (fc : FunctionCompiler) (c : Config) : K.KeepsTemps fc c c := fun _ _ _ => rfl

theorem KeepsTemps.trans (h : K.KeepsTemps s.cur c c₁) (hp : s.KeepsLife s₁)
    (h' : K.KeepsTemps s₁.cur c₁ c₂) : K.KeepsTemps s.cur c c₂ := fun q hq hn =>
  (h' q (hp.live q hq) (hp.homeless q hq hn)).trans (h q hq hn)

/-- An expression without a destination leaves the temporaries alone. -/
theorem Keeps.temps {env : SourceEnv} {e : Expr} {fc : FunctionCompiler}
    (h : K.Keeps env e none fc c c₁) : K.KeepsTemps fc c c₁ := fun q hq hn => by
  refine h q hq (by simp) fun n _ hl => ?_
  obtain ⟨l, hmem, hreg⟩ := FunctionCompiler.mem_of_lookupVar hl
  exact hn l hmem hreg

theorem raise.leave {e : Signal} {σ : InterpState} (h : K.raise e c σ)
    (ts : List LoopTarget) (names : FunctionCompiler → Prop) (finallys : List PendingFinally)
    (fc : FunctionCompiler) (c₀ : Config) : K.leave ts names finallys e c σ ∧
      (e = .break ∨ e = .continue → K.KeepsTemps fc c₀ c) := by
  obtain ⟨hexit, hb, hc⟩ := h
  refine ⟨?_, fun hbc => (hbc.elim hb hc).elim⟩
  cases e with
  | «break» => exact absurd rfl hb
  | «continue» => exact absurd rfl hc
  | _ => exact hexit

/-- Where no `finally` block is pending, leaving is a jump. -/
theorem Leaving.reaches {names : FunctionCompiler → Prop}
    {finallys : List PendingFinally} {floor target : Nat} {σ : InterpState}
    (h : K.Leaving names finallys floor target c σ) (hf : finallys.length ≤ floor) :
    ∃ fc, names fc ∧ K.Here target fc (K.site.jump target c) σ ∧
      c.Steps K.site.machine (K.site.jump target c) := by
  obtain ⟨rec, ts, s, s', fc, hnames, hh, -, rfl, hfin, -, -, -, hword⟩ := h
  have hsame : s' = s := by
    have hnone : s.cur.pendingFinally.length - floor = 0 := by omega
    unfold Compile.emitPendingFinallys at hfin
    simp only [Exec.bind_apply, Compile.cur, gets_apply, hnone, List.take_zero, List.isEmpty_nil,
      Bool.not_true, Bool.false_eq_true, if_false] at hfin
    cases hfin
    rfl
  subst hsame
  have hstep := hh.1.step_jumpTo hword rfl
  rw [Instruction.withTarget_bx] at hstep
  exact ⟨fc, hnames, ⟨hh.1.jump _, K.jump _ hh.2⟩, hstep⟩

end Correspondence

/-! ## Sequences of statements -/

/-- Words that come later change nothing for the words before them. -/
theorem Site.CarriesUpTo.before {x : Site} {ts : List LoopTarget} {s₁ s₂ : CompilerState} {a : Nat}
    (h : x.CarriesUpTo ts s₂.cur a s₂.cur.code.length) (hp : StmtPost s₁ s₂) :
    x.CarriesUpTo ts s₁.cur a s₁.cur.code.length := by
  intro i w hi hlt hw
  rw [h i w hi (Nat.lt_of_lt_of_le hlt hp.length) (getElem?_extends hp.code hw),
    LoopContext.AllGrow.resolve hp.loops hlt]

theorem Site.CarriesUpTo.later {x : Site} {ts : List LoopTarget} {fc : FunctionCompiler}
    {a a' b : Nat} (h : x.CarriesUpTo ts fc a b) (ha : a ≤ a') : x.CarriesUpTo ts fc a' b :=
  fun i w hi => h i w (Nat.le_trans ha hi)

/-- What leaves code in one way leaves it in another. -/
theorem Correspondence.leave.imp [DoubleOps] {K : Correspondence}
    {ts : List LoopTarget} {names names' : FunctionCompiler → Prop}
    {finallys : List PendingFinally} {e : Signal} {c : Config} {σ σ' : InterpState}
    (h : K.leave ts names finallys e c σ)
    (hleaving : ∀ {floor target}, K.Leaving names finallys floor target c σ →
      K.Leaving names' finallys floor target c σ')
    (hexit : K.exit e c σ → K.exit e c σ') : K.leave ts names' finallys e c σ' := by
  unfold leave at h ⊢
  cases e with
  | «break» =>
    cases ts with
    | nil => exact hexit h
    | cons t ts => exact hleaving h
  | «continue» =>
    cases hd : ts.dropWhile LoopTarget.isSwitch with
    | nil =>
      simp only [hd] at h ⊢
      exact hexit h
    | cons t ts' =>
      simp only [hd] at h ⊢
      exact hleaving h
  | _ => exact hexit h

theorem Correspondence.leave.mono [DoubleOps] {K : Correspondence}
    {ts : List LoopTarget} {names names' : FunctionCompiler → Prop}
    {finallys : List PendingFinally} {e : Signal} {c : Config} {σ : InterpState}
    (h : K.leave ts names finallys e c σ) (hn : ∀ fc, names fc → names' fc) :
    K.leave ts names' finallys e c σ :=
  h.imp (fun ⟨rec, ts', s, s', fc, hfc, hrest⟩ => ⟨rec, ts', s, s', fc, hn fc hfc, hrest⟩) id

section Sequences

variable [DoubleOps] {K : Correspondence} {finallys : List PendingFinally}
  {k k' : Compile Unit} {m m' : Interp Unit}

theorem StmtRuns.seq {s s₁ s₂ : CompilerState} (hp : StmtPost s s₁) (hp' : StmtPost s₁ s₂)
    (h : StmtRuns K m s.cur s₁.cur) (h' : StmtRuns K m' s₁.cur s₂.cur) :
    StmtRuns K (do m; m') s.cur s₂.cur := by
  intro ts hts hcode hcov c σ hh
  have hfirst := h ts hts (hcode.before hp') (hcov.of_tables hp'.tables) c σ hh
  refine Site.Sim.bind hfirst fun _ c₁ σ₁ ⟨hh₁, hk₁⟩ => ?_
  have hfits := LoopContext.AllGrow.fits hp.loops hts
  have hnext := h' ts hfits (hcode.later hp.length) hcov c₁ σ₁ hh₁
  refine hnext.mono (fun _ c₂ σ₂ ⟨hh₂, hk₂⟩ => ⟨hh₂, hk₁.trans hp.toKeepsLife hk₂⟩) ?_
  rintro e c₂ σ₂ ⟨hleave, hk₂⟩
  rw [hp.finallys] at hleave
  exact ⟨hleave.mono fun fc hfc => hp.more.trans hfc,
    fun hbc => hk₁.trans hp.toKeepsLife (hk₂ hbc)⟩

theorem StmtOk.seq (h : StmtOk K finallys k m) (h' : StmtOk K finallys k' m') :
    StmtOk K finallys (do k; k') (do m; m') := by
  intro s s₂ ht hf hc
  obtain ⟨u, s₁, hk, hk'⟩ := bind_eq_ok.mp hc
  obtain ⟨hp, hrun⟩ := h s s₁ ht hf hk
  obtain ⟨hp', hrun'⟩ := h' s₁ s₂ hp.tidy (hp.finallys.trans hf) hk'
  exact ⟨hp.trans hp', hrun.seq hp hp' hrun'⟩

/-- Statements one after the other. -/
theorem StmtOk.forEach {α : Type} {as : List α} {k : α → Compile Unit} {m : α → Interp Unit}
    (h : ∀ a ∈ as, StmtOk K finallys (k a) (m a)) :
    StmtOk K finallys (Exec.forEach as k) (Exec.forEach as m) := by
  induction as with
  | nil =>
    intro s s' ht _ hc
    cases hc
    exact ⟨.refl ht, fun ts _ _ _ c σ hh => .pure ⟨hh, .refl _ _⟩⟩
  | cons a rest ih =>
    exact (h a List.mem_cons_self).seq (ih fun b hb => h b (List.mem_cons_of_mem _ hb))

end Sequences

end Look
