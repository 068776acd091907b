/-
The logical operators, as the compiler and as the interpreter understand them.

The compiled code of `&&` and `||` leaves the operand that decides in the register of the result.
The interpreter returns the truth of that operand.  Where only the truth of the result is asked
for, as in a condition or in an operand of another `&&`, the two cannot be told apart.  They can
where the result is compared with null, and where it is used as a value.

`operandRun` and `boolRun` are the two readings of an expression, with a record of the parts that
they evaluate.  `same_iff_clean` says where they agree: every operand that decides is a boolean
where its value is used, and is not null where it is the left operand of a `??`.
-/
import Look.Interp.Eval

namespace Look

open Exec

/-! ## Trees -/

/-- An expression that is built with the logical operators over others. -/
inductive LogicTree where
  | leaf (e : Expr)
  | not (pre : Bool) (t : LogicTree)
  /- `&&` for `true`, and `||` for `false`: the right operand is evaluated when the left one has
  this truth. -/
  | logical (conj : Bool) (l r : LogicTree)
  | coalesce (l r : LogicTree)
  | cond (c t e : LogicTree)

namespace LogicTree

/-- The operator of a node. -/
def logicalOp (conj : Bool) : BinaryOp := if conj then .and else .or

def toExpr : LogicTree → Expr
  | leaf e => e
  | not pre t => .unary .not t.toExpr pre
  | logical conj l r => .binary l.toExpr (logicalOp conj) r.toExpr
  | coalesce l r => .binary l.toExpr .coalesce r.toExpr
  | cond c t e => .ternary c.toExpr t.toExpr e.toExpr

/-- The expressions that the tree is built over. -/
def leaves : LogicTree → List Expr
  | leaf e => [e]
  | not _ t => t.leaves
  | logical _ l r => l.leaves ++ r.leaves
  | coalesce l r => l.leaves ++ r.leaves
  | cond c t e => c.leaves ++ (t.leaves ++ e.leaves)

end LogicTree

/-! ## Two readings -/

/-- Which parts of a tree have been evaluated, one after the other.  Evaluating a tree for which
there is no fuel is `stop`. -/
inductive Trace where
  | skipped
  | stop
  | leaf
  | node (first second third : Trace)
deriving DecidableEq

/-- How an evaluation ends, with a record of it. -/
abbrev Outcome (τ : Type) : Type := Res InterpState Signal Value × τ

section Runs

variable [DoubleOps]

/-- The truth of a value in a state. -/
def Value.holds (v : Value) (s : InterpState) : Bool := v.isTruthy s.world.arrays

@[simp] theorem Value.holds_bool (b : Bool) (s : InterpState) : (Value.bool b).holds s = b := rfl

namespace Outcome

/-- The first part has been evaluated: go on with its value. -/
def goOn (x : Outcome Trace) (k : Value → InterpState → Outcome (Trace × Trace)) : Outcome Trace :=
  match x with
  | (.ok v s, t) => ((k v s).1, .node t (k v s).2.1 (k v s).2.2)
  | (r, t) => (r, .node t .skipped .skipped)

/-- Nothing more is evaluated. -/
def done (r : Res InterpState Signal Value) : Outcome (Trace × Trace) := (r, .skipped, .skipped)

/-- The second part is evaluated. -/
def second (x : Outcome Trace) : Outcome (Trace × Trace) := (x.1, x.2, .skipped)

/-- The third part is evaluated. -/
def third (x : Outcome Trace) : Outcome (Trace × Trace) := (x.1, .skipped, x.2)

/-- The value is turned into what the operator returns. -/
def answered (answer : InterpState → Value → Value) (x : Outcome Trace) : Outcome Trace :=
  match x with
  | (.ok v s, t) => (.ok (answer s v) s, t)
  | (r, t) => (r, t)

/-- The value satisfies `P`, if there is one. -/
def Then (x : Outcome Trace) (P : Value → InterpState → Prop) : Prop :=
  match x.1 with
  | .ok v s => P v s
  | _ => True

end Outcome

open Outcome

/-- A tree is evaluated, where `&&` and `||` answer with `answer` of the operand that decides. -/
def logicRun (host : InterpHost) (answer : InterpState → Value → Value) :
    Nat → LogicTree → InterpState → Outcome Trace
  | n, .leaf e, s => ((Interp.recAt host n).eval e s, .leaf)
  | 0, _, s => (timeout s, .stop)
  | n + 1, .not _ t, s =>
    goOn (logicRun host answer n t s) fun v s => done (.ok (.bool (!v.holds s)) s)
  | n + 1, .logical conj l r, s =>
    goOn (logicRun host answer n l s) fun v s =>
      if v.holds s = conj then second (answered answer (logicRun host answer n r s))
      else done (.ok (answer s v) s)
  | n + 1, .coalesce l r, s =>
    goOn (logicRun host answer n l s) fun v s =>
      if v = .none then second (logicRun host answer n r s) else done (.ok v s)
  | n + 1, .cond c t e, s =>
    goOn (logicRun host answer n c s) fun v s =>
      if v.holds s then second (logicRun host answer n t s)
      else third (logicRun host answer n e s)

variable (host : InterpHost)

/-- The reading of the compiler. -/
def operandRun : Nat → LogicTree → InterpState → Outcome Trace := logicRun host fun _ v => v

/-- The reading of the interpreter. -/
def boolRun : Nat → LogicTree → InterpState → Outcome Trace :=
  logicRun host fun s v => .bool (v.holds s)

/-- `&&` and `||` in the interpreter. -/
theorem evalBinary_logical (rec : InterpRec) (conj : Bool) (l r : Expr) :
    Interp.evalBinary rec l (LogicTree.logicalOp conj) r = rec.eval l >>= fun v =>
      Interp.truthy v >>= fun b =>
        if b = conj then rec.eval r >>= fun w => Interp.truthy w >>= fun b => Pure.pure (.bool b)
        else Pure.pure (.bool b) := by
  cases conj with
  | true =>
    show (rec.eval l >>= fun v => Interp.truthy v >>= fun b => _) = _
    refine bind_congr fun v => bind_congr fun b => ?_
    cases b <;> rfl
  | false =>
    show (rec.eval l >>= fun v => Interp.truthy v >>= fun b => _) = _
    refine bind_congr fun v => bind_congr fun b => ?_
    cases b <;> rfl

/-- The second reading is what `evaluate_expression` does. -/
theorem boolRun_eval (n : Nat) (t : LogicTree) (s : InterpState) :
    (boolRun host n t s).1 = (Interp.recAt host n).eval t.toExpr s := by
  induction t generalizing n s with
  | leaf e => cases n <;> rfl
  | not pre t ih =>
    cases n with
    | zero => rfl
    | succ n =>
      show (goOn (boolRun host n t s) _).1 = (do
        return .bool (!(← Interp.truthy (← (Interp.recAt host n).eval t.toExpr))) : Interp Value) s
      rw [bind_apply, ← ih]
      rcases boolRun host n t s with ⟨v | e | _, tr⟩ <;> rfl
  | logical conj l r ihl ihr =>
    cases n with
    | zero => cases conj <;> rfl
    | succ n =>
      have heval : (Interp.recAt host (n + 1)).eval (LogicTree.logical conj l r).toExpr =
          Interp.evalBinary (Interp.recAt host n) l.toExpr (LogicTree.logicalOp conj) r.toExpr := rfl
      show (goOn (boolRun host n l s) _).1 = _
      rw [heval, evalBinary_logical, bind_apply, ← ihl]
      rcases boolRun host n l s with ⟨v | e | _, tr⟩
      · rename_i s'
        show (if v.holds s' = conj then _ else _ : Outcome (Trace × Trace)).1 =
          (if v.holds s' = conj then _ else _ : Interp Value) s'
        by_cases h : v.holds s' = conj
        · rw [if_pos h, if_pos h, bind_apply, ← ihr]
          show (second (answered _ (boolRun host n r s'))).1 = _
          rcases boolRun host n r s' with ⟨w | e | _, tr'⟩ <;> rfl
        · rw [if_neg h, if_neg h]
          rfl
      · rfl
      · rfl
  | coalesce l r ihl ihr =>
    cases n with
    | zero => rfl
    | succ n =>
      show (goOn (boolRun host n l s) _).1 = ((Interp.recAt host n).eval l.toExpr >>= fun v =>
        if v ≠ .none then Pure.pure v else (Interp.recAt host n).eval r.toExpr : Interp Value) s
      rw [bind_apply, ← ihl]
      rcases boolRun host n l s with ⟨v | e | _, tr⟩
      · rename_i s'
        show (if v = .none then _ else _ : Outcome (Trace × Trace)).1 =
          (if v ≠ .none then _ else _ : Interp Value) s'
        by_cases h : v = .none
        · rw [if_pos h, if_neg (not_not_intro h), ← ihr]
          rfl
        · rw [if_neg h, if_pos h]
          rfl
      · rfl
      · rfl
  | cond c t e ihc iht ihe =>
    cases n with
    | zero => rfl
    | succ n =>
      show (goOn (boolRun host n c s) _).1 = ((Interp.recAt host n).eval c.toExpr >>= fun v =>
        Interp.truthy v >>= fun b => if b then (Interp.recAt host n).eval t.toExpr
          else (Interp.recAt host n).eval e.toExpr : Interp Value) s
      rw [bind_apply, ← ihc]
      rcases boolRun host n c s with ⟨v | e' | _, tr⟩
      · rename_i s'
        show (if v.holds s' then _ else _ : Outcome (Trace × Trace)).1 =
          (if v.holds s' then _ else _ : Interp Value) s'
        by_cases h : v.holds s'
        · rw [if_pos h, if_pos h, ← iht]
          rfl
        · rw [if_neg h, if_neg h, ← ihe]
          rfl
      · rfl
      · rfl

/-! ## Where the readings agree -/

/-- What becomes of a value: it is used, it is compared with null and used if it is not null and
only its truth counts, or only its truth counts. -/
inductive Use where
  | value
  | nullness
  | truth
deriving DecidableEq

namespace Use

/-- The values do the same for this use. -/
def Agree (u : Use) (s : InterpState) (v w : Value) : Prop :=
  v.holds s = w.holds s ∧
    match u with
    | value => v = w
    | nullness => v = .none ↔ w = .none
    | truth => True

/-- The truth of the value will do for the value. -/
def Decides : Use → Value → Prop
  | value, v => ∃ b, v = .bool b
  | nullness, v => v ≠ .none
  | truth, _ => True

/-- The left operand of a `??` is compared with null. -/
def compared : Use → Use
  | value => value
  | _ => nullness

/-- The results do the same for this use. -/
inductive Result (u : Use) : Res InterpState Signal Value → Res InterpState Signal Value → Prop
  | ok {v w : Value} {s : InterpState} : u.Agree s v w → Result u (.ok v s) (.ok w s)
  | error (e : Signal) (s : InterpState) : Result u (.error e s) (.error e s)
  | timeout : Result u .timeout .timeout

/-- The same has been evaluated, and the results do the same for this use. -/
def Same {τ : Type} (u : Use) (x y : Outcome τ) : Prop := u.Result x.1 y.1 ∧ x.2 = y.2

variable {u : Use} {s : InterpState} {v w : Value} {τ : Type} {x y : Outcome τ}

theorem Agree.truth (h : u.Agree s v w) : Use.truth.Agree s v w := ⟨h.1, trivial⟩

theorem Agree.refl (u : Use) (s : InterpState) (v : Value) : u.Agree s v v := by
  cases u
  · exact ⟨rfl, rfl⟩
  · exact ⟨rfl, .rfl⟩
  · exact ⟨rfl, trivial⟩

theorem Agree.compared (h : u.Agree s v w) (hnull : v = .none ↔ w = .none) :
    u.compared.Agree s v w := by
  cases u with
  | value => exact h
  | nullness => exact h
  | truth => exact ⟨h.1, hnull⟩

theorem Agree.of_compared (h : u.compared.Agree s v w) :
    u.Agree s v w ∧ (v = .none ↔ w = .none) := by
  cases u with
  | value => exact ⟨h, h.2 ▸ .rfl⟩
  | nullness => exact ⟨h, h.2⟩
  | truth => exact ⟨h.truth, h.2⟩

/-- The truth of a value will do for a use exactly when the value decides. -/
theorem agree_bool (h : v.holds s = w.holds s) :
    u.Agree s v (.bool (w.holds s)) ↔ u.Decides v := by
  cases u with
  | value =>
    constructor
    · exact fun hagree => ⟨_, hagree.2⟩
    · rintro ⟨b, rfl⟩
      exact ⟨h, congrArg Value.bool h⟩
  | nullness =>
    constructor
    · exact fun hagree hnull => nomatch hagree.2.mp hnull
    · exact fun hne => ⟨h, fun hnull => absurd hnull hne, nofun⟩
  | truth => exact ⟨fun _ => trivial, fun _ => ⟨h, trivial⟩⟩

theorem Result.refl (u : Use) (r : Res InterpState Signal Value) : u.Result r r := by
  cases r with
  | ok v s => exact .ok (.refl u s v)
  | error e s => exact .error e s
  | timeout => exact .timeout

theorem Same.refl (u : Use) (x : Outcome τ) : u.Same x x := ⟨.refl u _, rfl⟩

theorem Result.truth {r r' : Res InterpState Signal Value} (h : u.Result r r') :
    Use.truth.Result r r' := by
  cases h with
  | ok h => exact .ok h.truth
  | error e s => exact .error e s
  | timeout => exact .timeout

theorem Same.truth (h : u.Same x y) : Use.truth.Same x y := ⟨h.1.truth, h.2⟩

theorem same_value : Use.value.Same x y ↔ x = y := by
  obtain ⟨r, t⟩ := x
  obtain ⟨r', t'⟩ := y
  constructor
  · rintro ⟨hr, ht⟩
    refine Prod.ext ?_ ht
    change Use.value.Result r r' at hr
    cases hr with
    | ok h => rw [h.2]
    | error e s => rfl
    | timeout => rfl
  · intro h
    rw [h]
    exact .refl _ _

end Use

namespace Outcome

/-- When the records are the same the results are, as far as truth goes. -/
def Tells {τ : Type} (x y : Outcome τ) : Prop := x.2 = y.2 → Use.truth.Same x y

variable {u : Use} {x y : Outcome Trace} {k k' : Value → InterpState → Outcome (Trace × Trace)}

omit [DoubleOps] in
theorem goOn_trace (h : (x.goOn k).2 = (y.goOn k').2) : x.2 = y.2 := by
  rcases x with ⟨v | e | _, t⟩ <;> rcases y with ⟨w | e' | _, t'⟩ <;> exact (Trace.node.inj h).1

/-- Two evaluations that go on do the same when the first parts do, as far as truth goes, and
what follows does. -/
theorem goOn_same (hx : x.Tells y) :
    u.Same (x.goOn k) (y.goOn k') ↔ Use.truth.Same x y ∧ ∀ v w s, x.1 = .ok v s → y.1 = .ok w s →
      Use.truth.Agree s v w → u.Same (k v s) (k' w s) := by
  constructor
  · intro h
    have hfirst := hx (goOn_trace h.2)
    refine ⟨hfirst, ?_⟩
    rintro v w s hv hw -
    rcases x with ⟨r, t⟩
    rcases y with ⟨r', t'⟩
    obtain rfl : r = .ok v s := hv
    obtain rfl : r' = .ok w s := hw
    have htrace := Trace.node.inj h.2
    exact ⟨h.1, Prod.ext htrace.2.1 htrace.2.2⟩
  · rintro ⟨⟨hr, ht⟩, hrest⟩
    rcases x with ⟨r, t⟩
    rcases y with ⟨r', t'⟩
    obtain rfl : t = t' := ht
    change Use.truth.Result r r' at hr
    cases hr with
    | @ok v w s hagree =>
      obtain ⟨hres, htraces⟩ := hrest v w s rfl rfl hagree
      refine ⟨hres, ?_⟩
      show Trace.node t (k v s).2.1 (k v s).2.2 = .node t (k' w s).2.1 (k' w s).2.2
      rw [htraces]
    | error e s => exact .refl _ _
    | timeout => exact .refl _ _

theorem Tells.goOn (hx : x.Tells y)
    (hk : ∀ v w s, Use.truth.Agree s v w → (k v s).Tells (k' w s)) :
    (x.goOn k).Tells (y.goOn k') := by
  intro h
  refine (goOn_same hx).mpr ⟨hx (goOn_trace h), fun v w s hv hw hagree => hk v w s hagree ?_⟩
  rcases x with ⟨r, t⟩
  rcases y with ⟨r', t'⟩
  obtain rfl : r = .ok v s := hv
  obtain rfl : r' = .ok w s := hw
  have htrace := Trace.node.inj h
  exact Prod.ext htrace.2.1 htrace.2.2

theorem done_same {r r' : Res InterpState Signal Value} :
    u.Same (done r) (done r') ↔ u.Result r r' :=
  ⟨And.left, fun h => ⟨h, rfl⟩⟩

theorem second_same : u.Same (second x) (second y) ↔ u.Same x y :=
  ⟨fun h => ⟨h.1, (Prod.mk.inj h.2).1⟩, fun h => ⟨h.1, congrArg (·, Trace.skipped) h.2⟩⟩

theorem third_same : u.Same (third x) (third y) ↔ u.Same x y :=
  ⟨fun h => ⟨h.1, (Prod.mk.inj h.2).2⟩, fun h => ⟨h.1, congrArg (Trace.skipped, ·) h.2⟩⟩

theorem Tells.second (h : x.Tells y) : (Outcome.second x).Tells (Outcome.second y) :=
  fun ht => second_same.mpr (h (Prod.mk.inj ht).1)

theorem Tells.third (h : x.Tells y) : (Outcome.third x).Tells (Outcome.third y) :=
  fun ht => third_same.mpr (h (Prod.mk.inj ht).2)

end Outcome

/-- Evaluating a tree leaves a record, if only that there was no fuel. -/
theorem logicRun_trace (answer : InterpState → Value → Value) (n : Nat) (t : LogicTree)
    (s : InterpState) : (logicRun host answer n t s).2 ≠ .skipped := by
  have hgoOn : ∀ (x : Outcome Trace) k, (goOn x k).2 ≠ .skipped := by
    rintro ⟨v | e | _, tr⟩ k <;> exact nofun
  cases t with
  | leaf e =>
    rw [logicRun]
    exact nofun
  | _ =>
    cases n with
    | zero => exact nofun
    | succ n => exact hgoOn _ _

omit [DoubleOps] in
@[simp] theorem answered_trace (answer : InterpState → Value → Value) (x : Outcome Trace) :
    (answered answer x).2 = x.2 := by
  rcases x with ⟨v | e | _, t⟩ <;> rfl

omit [DoubleOps] in
theorem answered_operand (x : Outcome Trace) : answered (fun _ v => v) x = x := by
  rcases x with ⟨v | e | _, t⟩ <;> rfl

/-- What is the same for the truth of both operands is the same for the result of `&&` or `||`, as
far as the operand decides for the use. -/
theorem answered_same {u : Use} {x y : Outcome Trace} (hx : x.Tells y) :
    u.Same x (answered (fun s v => .bool (v.holds s)) y) ↔
      Use.truth.Same x y ∧ x.Then fun v _ => u.Decides v := by
  rcases x with ⟨r, t⟩
  rcases y with ⟨r', t'⟩
  have hsame : ∀ {u' : Use}, u'.Same (r, t) (answered (fun s v => .bool (v.holds s)) (r', t')) →
      t = t' := by
    intro u' h
    rcases r' with v | e | _ <;> exact h.2
  constructor
  · intro h
    have htruth := hx (hsame h)
    refine ⟨htruth, ?_⟩
    obtain ⟨hr, -⟩ := htruth
    change Use.truth.Result r r' at hr
    cases hr with
    | ok hagree =>
      have hres : u.Result _ _ := h.1
      cases hres with
      | ok hres => exact (Use.agree_bool hagree.1).mp hres
    | error e s => trivial
    | timeout => trivial
  · rintro ⟨⟨hr, ht⟩, hdecides⟩
    obtain rfl : t = t' := ht
    change Use.truth.Result r r' at hr
    cases hr with
    | ok hagree => exact ⟨.ok ((Use.agree_bool hagree.1).mpr hdecides), rfl⟩
    | error e s => exact .refl _ _
    | timeout => exact .refl _ _

theorem Outcome.Tells.answered {x y : Outcome Trace} (h : x.Tells y) :
    x.Tells (Outcome.answered (fun s v => .bool (v.holds s)) y) := by
  intro ht
  rw [answered_trace] at ht
  refine (answered_same h).mpr ⟨h ht, ?_⟩
  rcases x with ⟨v | e | _, t⟩ <;> trivial

/-- Two readings with the same record have results of the same truth. -/
theorem readings_tell (n : Nat) (t : LogicTree) (s : InterpState) :
    (operandRun host n t s).Tells (boolRun host n t s) := by
  induction t generalizing n s with
  | leaf e =>
    intro _
    cases n <;> exact .refl _ _
  | not pre t ih =>
    cases n with
    | zero => exact fun _ => .refl _ _
    | succ n =>
      refine (ih n s).goOn fun v w s' h _ => ?_
      rw [h.1]
      exact .refl _ _
  | logical conj l r ihl ihr =>
    cases n with
    | zero => exact fun _ => .refl _ _
    | succ n =>
      refine (ihl n s).goOn fun v w s' h => ?_
      rw [← h.1]
      by_cases hv : v.holds s' = conj
      · rw [if_pos hv, if_pos hv, answered_operand]
        exact (ihr n s').answered.second
      · rw [if_neg hv, if_neg hv]
        exact fun _ => done_same.mpr (.ok ((Use.agree_bool h.1).mpr trivial))
  | coalesce l r ihl ihr =>
    cases n with
    | zero => exact fun _ => .refl _ _
    | succ n =>
      refine (ihl n s).goOn fun v w s' h => ?_
      by_cases hv : v = .none
      · by_cases hw : w = .none
        · rw [if_pos hv, if_pos hw]
          exact (ihr n s').second
        · rw [if_pos hv, if_neg hw]
          exact fun ht => absurd (Prod.mk.inj ht).1 (logicRun_trace host _ n r s')
      · by_cases hw : w = .none
        · rw [if_neg hv, if_pos hw]
          exact fun ht => absurd (Prod.mk.inj ht).1.symm (logicRun_trace host _ n r s')
        · rw [if_neg hv, if_neg hw]
          exact fun _ => done_same.mpr (.ok h)
  | cond c t e ihc iht ihe =>
    cases n with
    | zero => exact fun _ => .refl _ _
    | succ n =>
      refine (ihc n s).goOn fun v w s' h => ?_
      rw [← h.1]
      by_cases hv : v.holds s'
      · rw [if_pos hv, if_pos hv]
        exact (iht n s').second
      · rw [if_neg hv, if_neg hv]
        exact (ihe n s').third

/-- The two readings of the tree agree for this use: where an operand decides, its truth will do
for it. -/
def LogicTree.Clean : Use → Nat → LogicTree → InterpState → Prop
  | _, _, .leaf _, _ => True
  | _, 0, _, _ => True
  | _, n + 1, .not _ t, s => t.Clean .truth n s
  | u, n + 1, .logical conj l r, s =>
    l.Clean .truth n s ∧ (operandRun host n l s).Then fun v s' =>
      if v.holds s' = conj then
        r.Clean .truth n s' ∧ (operandRun host n r s').Then fun w _ => u.Decides w
      else u.Decides v
  | u, n + 1, .coalesce l r, s =>
    l.Clean u.compared n s ∧ (operandRun host n l s).Then fun v s' => v = .none → r.Clean u n s'
  | u, n + 1, .cond c t e, s =>
    c.Clean .truth n s ∧ (operandRun host n c s).Then fun v s' =>
      if v.holds s' then t.Clean u n s' else e.Clean u n s'

section Clean

variable {u : Use} {x y : Outcome Trace} {k k' : Value → InterpState → Outcome (Trace × Trace)}

/-- What follows the first part is the same when it is the same behind every value. -/
theorem goOn_same_iff {P : Value → InterpState → Prop} (hx : x.Tells y)
    (hP : ∀ v w s, Use.truth.Agree s v w → (u.Same (k v s) (k' w s) ↔ P v s)) :
    u.Same (x.goOn k) (y.goOn k') ↔ Use.truth.Same x y ∧ x.Then P := by
  rw [goOn_same hx]
  refine and_congr_right fun hsame => ?_
  rcases x with ⟨r, t⟩
  rcases y with ⟨r', t'⟩
  obtain ⟨hr, -⟩ := hsame
  change Use.truth.Result r r' at hr
  cases hr with
  | @ok v w s hagree =>
    constructor
    · exact fun h => (hP v w s hagree).mp (h v w s rfl rfl hagree)
    · rintro h _ _ _ ⟨⟩ ⟨⟩ -
      exact (hP v w s hagree).mpr h
  | error e s => exact ⟨fun _ => trivial, fun _ _ _ _ h => nomatch h⟩
  | timeout => exact ⟨fun _ => trivial, fun _ _ _ _ h => nomatch h⟩

/-- `??` compares its left operand with null, and uses it when it is not null. -/
theorem coalesce_same {f g : InterpState → Outcome Trace} (hx : x.Tells y)
    (hf : ∀ s, (f s).2 ≠ .skipped) (hg : ∀ s, (g s).2 ≠ .skipped) :
    u.Same (x.goOn fun v s => if v = .none then second (f s) else done (.ok v s))
        (y.goOn fun v s => if v = .none then second (g s) else done (.ok v s)) ↔
      u.compared.Same x y ∧ x.Then fun v s => v = .none → u.Same (f s) (g s) := by
  rw [goOn_same hx]
  constructor
  · rintro ⟨⟨hr, ht⟩, hrest⟩
    rcases x with ⟨r, t⟩
    rcases y with ⟨r', t'⟩
    change Use.truth.Result r r' at hr
    cases hr with
    | @ok v w s hagree =>
      have hsame := hrest v w s rfl rfl hagree
      by_cases hv : v = .none
      · by_cases hw : w = .none
        · rw [if_pos hv, if_pos hw] at hsame
          subst hv hw
          exact ⟨⟨.ok (.refl _ _ _), ht⟩, fun _ => second_same.mp hsame⟩
        · rw [if_pos hv, if_neg hw] at hsame
          exact absurd (Prod.mk.inj hsame.2).1 (hf s)
      · by_cases hw : w = .none
        · rw [if_neg hv, if_pos hw] at hsame
          exact absurd (Prod.mk.inj hsame.2).1.symm (hg s)
        · rw [if_neg hv, if_neg hw] at hsame
          have hres : u.Result (.ok v s) (.ok w s) := hsame.1
          cases hres with
          | ok h => exact ⟨⟨.ok (h.compared ⟨(absurd · hv), (absurd · hw)⟩), ht⟩, (absurd · hv)⟩
    | error e s => exact ⟨⟨.error e s, ht⟩, trivial⟩
    | timeout => exact ⟨⟨.timeout, ht⟩, trivial⟩
  · rintro ⟨hsame, hthen⟩
    refine ⟨hsame.truth, ?_⟩
    rintro v w s hv hw -
    rcases x with ⟨r, t⟩
    rcases y with ⟨r', t'⟩
    obtain rfl : r = .ok v s := hv
    obtain rfl : r' = .ok w s := hw
    have hres : u.compared.Result (.ok v s) (.ok w s) := hsame.1
    cases hres with
    | ok h =>
      obtain ⟨hagree, hnull⟩ := h.of_compared
      by_cases hv : v = .none
      · rw [if_pos hv, if_pos (hnull.mp hv)]
        exact second_same.mpr (hthen hv)
      · rw [if_neg hv, if_neg (hnull.not.mp hv)]
        exact done_same.mpr (.ok hagree)

end Clean

/-- The two readings agree for a use exactly when the tree is clean for it. -/
theorem same_iff_clean (u : Use) (n : Nat) (t : LogicTree) (s : InterpState) :
    u.Same (operandRun host n t s) (boolRun host n t s) ↔ t.Clean host u n s := by
  induction t generalizing u n s with
  | leaf e => cases n <;> exact ⟨fun _ => trivial, fun _ => .refl _ _⟩
  | not pre t ih =>
    cases n with
    | zero => exact ⟨fun _ => trivial, fun _ => .refl _ _⟩
    | succ n =>
      refine (goOn_same_iff (P := fun _ _ => True) (readings_tell host n t s) ?_).trans ?_
      · intro v w s' h
        rw [h.1]
        exact ⟨fun _ => trivial, fun _ => .refl _ _⟩
      · rw [ih]
        refine and_iff_left ?_
        rcases operandRun host n t s with ⟨v | e | _, tr⟩ <;> trivial
  | logical conj l r ihl ihr =>
    cases n with
    | zero => exact ⟨fun _ => trivial, fun _ => .refl _ _⟩
    | succ n =>
      refine (goOn_same_iff (readings_tell host n l s) fun v w s' h => ?_).trans
        (and_congr_left' (ihl ..))
      rw [← h.1]
      by_cases hv : v.holds s' = conj
      · rw [if_pos hv, if_pos hv, if_pos hv, answered_operand, second_same]
        exact (answered_same (readings_tell host n r s')).trans (and_congr_left' (ihr ..))
      · rw [if_neg hv, if_neg hv, if_neg hv, done_same]
        constructor
        · rintro (hagree | _ | _)
          exact (Use.agree_bool h.1).mp hagree
        · exact fun hdecides => .ok ((Use.agree_bool h.1).mpr hdecides)
  | coalesce l r ihl ihr =>
    cases n with
    | zero => exact ⟨fun _ => trivial, fun _ => .refl _ _⟩
    | succ n =>
      refine (coalesce_same (readings_tell host n l s) (logicRun_trace host _ n r)
        (logicRun_trace host _ n r)).trans (and_congr (ihl ..) ?_)
      rcases operandRun host n l s with ⟨v | e | _, tr⟩
      · exact forall_congr' fun _ => ihr ..
      · exact .rfl
      · exact .rfl
  | cond c t e ihc iht ihe =>
    cases n with
    | zero => exact ⟨fun _ => trivial, fun _ => .refl _ _⟩
    | succ n =>
      refine (goOn_same_iff (readings_tell host n c s) fun v w s' h => ?_).trans
        (and_congr_left' (ihc ..))
      rw [← h.1]
      by_cases hv : v.holds s'
      · rw [if_pos hv, if_pos hv, if_pos hv, second_same]
        exact iht ..
      · rw [if_neg hv, if_neg hv, if_neg hv, third_same]
        exact ihe ..

end Runs

end Look
