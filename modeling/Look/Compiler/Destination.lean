/-
Where the result of an expression is.

`compile_expr` takes the register in which its caller wants the result.  When there is one, the
result is there: every construct asks for the register once, and returns it.  So the `MOVE` that
follows an expression when it ended elsewhere is never emitted.
-/
import Look.Compiler.Compile
import Look.Compiler.Effects

namespace Look

namespace Compile

open Exec

/-- When the computation returns, it returns `d`. -/
def Lands (d : Nat) (m : Compile Nat) : Prop := ∀ s r s', m s = .ok r s' → r = d

namespace Lands

variable {α : Type} {d : Nat} {m : Compile α} {f : α → Compile Nat}

theorem ret (d : Nat) : Lands d (Pure.pure d) := by
  rintro s r s' ⟨⟩
  rfl

theorem throws (e : CompileError) : Lands d (Exec.throw e) := fun _ _ _ => nofun

theorem step (h : ∀ a, Lands d (f a)) : Lands d (m >>= f) := by
  intro s r s' hok
  obtain ⟨a, s₁, -, hf⟩ := bind_eq_ok.mp hok
  exact h a s₁ r s' hf

/-- The register that is asked for is the destination. -/
theorem dest {f : Nat → Compile Nat} (h : Lands d (f d)) : Lands d (ensureDest (some d) >>= f) := h

end Lands

variable [DoubleOps] (env : SourceEnv) (rec : Rec) (d : Nat)

/-! ## Operators -/

omit [DoubleOps] in
theorem compileLogical_lands (l : Expr) (op : BinaryOp) (r : Expr) :
    Lands d (compileLogical rec l op r (some d)) :=
  .dest (.step fun _ => .step fun _ => .step fun _ => .step fun _ => .ret d)

omit [DoubleOps] in
theorem compileCoalesce_lands (l r : Expr) : Lands d (compileCoalesce rec l r (some d)) := by
  refine .step fun _ => .dest (.step fun _ => .step fun _ => .step fun _ => .step fun _ => ?_)
  exact .step fun _ => .step fun _ => .step fun _ => .ret d

omit [DoubleOps] in
theorem compileBinary_lands (l : Expr) (op : BinaryOp) (r : Expr) :
    Lands d (compileBinary rec l op r (some d)) := by
  unfold compileBinary
  split
  · exact compileLogical_lands rec d l op r
  · split
    · exact compileCoalesce_lands rec d l r
    · refine .step fun _ => .step fun _ => .dest ?_
      dsimp only
      split <;> exact .step fun _ => .step fun _ => .step fun _ => .ret d

theorem compileIncrement_lands (op : OpCode) (name : String) (pre : Bool) :
    Lands d (compileIncrement op name pre (some d)) := by
  unfold compileIncrement
  -- On every path the register is asked for, filled and returned.
  repeat' first
    | exact .ret d
    | exact .throws _
    | refine .dest ?_
    | refine .step fun _ => ?_
    | split

theorem compileUnary_lands (op : UnaryOp) (e : Expr) (pre : Bool) :
    Lands d (compileUnary rec op e pre (some d)) := by
  unfold compileUnary
  split
  · split
    · exact compileIncrement_lands d _ _ pre
    · exact .throws _
  · exact .step fun _ => .dest (.step fun _ => .step fun _ => .ret d)

omit [DoubleOps] in
theorem compileTernary_lands (c t e : Expr) : Lands d (compileTernary rec c t e (some d)) := by
  refine .step fun _ => .step fun _ => .step fun _ => .dest (.step fun _ => ?_)
  exact .step fun _ => .step fun _ => .step fun _ => .step fun _ => .ret d

/-! ## Variables and calls -/

theorem compileVar_lands (name : String) : Lands d (compileVar name (some d)) := by
  refine .step fun loc => ?_
  dsimp only
  split
  · refine .step fun _ => ?_
    rw [if_neg (fun h => nomatch h.1)]
    exact .dest (.step fun _ => .ret d)
  · exact .dest (.step fun _ => .ret d)
  · refine .dest (.step fun _ => .step fun _ => .step fun _ => ?_)
    split
    · exact .step fun _ => .ret d
    · exact .ret d

theorem compileAssignValue_lands (name : String) (op : AssignOp) (object key : Option Expr)
    (value : Expr) : Lands d (compileAssignValue rec name op object key value (some d)) := by
  unfold compileAssignValue
  split
  · exact .dest (.step fun _ => .step fun _ => .ret d)
  · refine .step fun _ => .step fun loc => .dest ?_
    dsimp only
    split <;> exact .step fun _ => .ret d

omit [DoubleOps] in
theorem compileBuiltinCall_lands (bidx : Nat) (name : String) (arguments : List Expr) :
    Lands d (compileBuiltinCall rec bidx name arguments (some d)) := by
  refine .step fun _ => .dest ?_
  dsimp only
  split
  · exact .step fun _ => .step fun _ => .step fun _ => .ret d
  · exact .step fun _ => .step fun _ => .ret d

theorem compileGeneralCall_lands (callee : Expr) (arguments : List Expr) :
    Lands d (compileGeneralCall rec callee arguments (some d)) := by
  refine .step fun _ => .step fun _ => .step fun _ => .step fun _ => .dest ?_
  exact .step fun _ => .step fun _ => .step fun _ => .ret d

omit [DoubleOps] in
theorem compileSpecialCall_lands {name : String} {arguments : List Expr} {m : Compile Nat}
    (h : compileSpecialCall rec name arguments (some d) = some m) : Lands d m := by
  unfold compileSpecialCall at h
  split at h
  all_goals
    cases h
  all_goals
    split
  all_goals
    repeat' first
      | exact .ret d
      | exact .throws _
      | refine .dest ?_
      | refine .step fun _ => ?_

theorem compileCall_lands (callee : Expr) (arguments : List Expr) :
    Lands d (compileCall rec callee arguments (some d)) := by
  unfold compileCall
  split
  · dsimp only
    split
    · exact compileBuiltinCall_lands rec d _ _ arguments
    · exact .step fun _ => compileGeneralCall_lands rec d _ arguments
  · split
    · next hspecial => exact compileSpecialCall_lands rec d hspecial
    · split
      · exact compileBuiltinCall_lands rec d _ _ arguments
      · exact compileGeneralCall_lands rec d _ arguments
  · exact compileGeneralCall_lands rec d _ arguments

/-! ## Literals -/

theorem compileMember_lands (object : Expr) (field : String) :
    Lands d (compileMember rec object field (some d)) := by
  refine .step fun _ => .dest (.step fun _ => ?_)
  dsimp only
  split
  · exact .step fun _ => .step fun _ => .ret d
  · exact .step fun _ => .step fun _ => .step fun _ => .step fun _ => .step fun _ => .ret d

theorem compileStringLit_lands (value : String) (raw : Bool) :
    Lands d (compileStringLit env rec value raw (some d)) := by
  refine .dest ?_
  split
  · refine .step fun parts => ?_
    split
    · exact .dest (.step fun _ => .ret d)
    · split
      · next hdest =>
        obtain rfl := Option.some.inj hdest
        dsimp only
        split
        · exact .step fun _ => .step fun _ => .ret d
        · exact .ret d
      · next hdest => cases hdest
    · exact .dest (.step fun _ => .step fun _ => .step fun _ => .step fun _ => .ret d)
  · exact .step fun _ => .ret d

/-- The result of an expression is where it was asked for. -/
theorem compileExpr_lands (e : Expr) : Lands d (compileExpr env rec e (some d)) := by
  unfold compileExpr
  split
  · exact .dest (.step fun _ => .ret d)
  · exact .dest (.step fun _ => .ret d)
  · exact .dest (.step fun _ => .ret d)
  · exact .dest (.step fun _ => .ret d)
  · exact compileStringLit_lands env rec d _ _
  · exact compileVar_lands d _
  · exact compileAssignValue_lands rec d _ _ _ _ _
  · exact compileBinary_lands rec d _ _ _
  · exact compileUnary_lands rec d _ _ _
  · exact compileTernary_lands rec d _ _ _
  · exact compileCall_lands rec d _ _
  · refine .step fun _ => ?_
    dsimp only
    split
    · refine .step fun _ => .step fun _ => .step fun _ => .dest ?_
      exact .step fun _ => .step fun _ => .ret d
    · refine .step fun _ => .step fun _ => .dest ?_
      exact .step fun _ => .step fun _ => .ret d
  · exact .dest (.step fun _ => .step fun _ => .ret d)
  · exact .dest (.step fun _ => .step fun _ => .ret d)
  · exact .dest (.step fun _ => .step fun _ => .ret d)
  · exact .step fun _ => .step fun _ => .dest (.step fun _ => .step fun _ => .step fun _ => .ret d)
  · exact compileMember_lands rec d _ _
  · exact .dest (.step fun _ => .ret d)
  · exact .throws _

theorem recAt_lands (n : Nat) (e : Expr) : Lands d ((recAt env n).expr e (some d)) := by
  cases n with
  | zero => exact fun _ _ _ => nofun
  | succ n => exact compileExpr_lands env (recAt env n) d e

end Compile

end Look
