/-
Arithmetic on two INT values.

`integer_arithmetic` says of the operators and of the opcodes that they give the mathematical
result as an INT whenever there is one, and a FLOAT otherwise, and that no division on the way can
trap.  That a divisor is tested for zero as a float is no loss, because only 0 is converted to 0.
-/
import Look.Arith.Ieee
import Look.Arith.Overflow
import Look.Vm.Instr

namespace Look

open Machine64

namespace Value

/-! ## The machine operations of an operator -/

section Steps

variable [DoubleOps]

/-- `operator/` behind the checks of its operands. -/
def quotSteps (x y : Value) : Option (Except Fault Value) := do
  let d := y.toFloat
  if DoubleOps.eq d Double.zero then return .error (.error "Division by zero")
  if x.isFloat || y.isFloat then return .ok (.float (DoubleOps.div x.toFloat d))
  let i := y.toInt
  let self := x.toInt
  if i = -1 ∧ self.toInt = int64Min then
    return .ok (.float (DoubleOps.neg (DoubleOps.ofInt64 self)))
  if i ≠ 0 then
    if (← rem self i) = 0 then return .ok (.int (← quot self i))
  return .ok (.float (DoubleOps.div x.toFloat d))

/-- `operator%` behind the checks. -/
def remSteps (x y : Value) : Option (Except Fault Value) := do
  let i := y.toInt
  if i = 0 then return .error (.error "Modulo by zero")
  if i = -1 then return .ok (.int 0)
  return .ok (.int (← rem x.toInt i))

/-- Unary minus. -/
def negSteps : Value → Option Value
  | .float d => some (.float (DoubleOps.neg d))
  | v => do
    if v.toInt.toInt = int64Min then return .float (DoubleOps.neg (DoubleOps.ofInt64 v.toInt))
    return .int (← negate v.toInt)

end Steps

/-! ## The mathematical result -/

/-- An INT exactly when the result is a whole number that is one, and a FLOAT otherwise. -/
structure ExactOrPromoted (whole : Option Int) (r : Except Fault Value) : Prop where
  exact : ∀ i : Int64, r = .ok (.int i) ↔ whole = some i.toInt
  promoted : (∀ i : Int64, whole ≠ some i.toInt) → ∃ d, r = .ok (.float d)

/-- The quotient of two numbers, when it is whole. -/
def wholeQuotient (a b : Int) : Option Int := if b ∣ a then some (a / b) else Option.none

/-- What holds of two integers. -/
structure IntegerLaws [DoubleOps] (a b : Int64) : Prop where
  add : ExactOrPromoted (some (a.toInt + b.toInt)) ((int a).add (int b))
  sub : ExactOrPromoted (some (a.toInt - b.toInt)) ((int a).sub (int b))
  mul : ExactOrPromoted (some (a.toInt * b.toInt)) ((int a).mul (int b))
  neg : ExactOrPromoted (some (-a.toInt)) (.ok (int a).neg)
  div : b ≠ 0 → ExactOrPromoted (wholeQuotient a.toInt b.toInt) ((int a).div (int b))
  mod : b ≠ 0 → ExactOrPromoted (some (a.toInt.tmod b.toInt)) ((int a).mod (int b))
  divZero : b = 0 → (int a).div (int b) = .error (.error "Division by zero")
  modZero : b = 0 → (int a).mod (int b) = .error (.error "Modulo by zero")
  divSteps : quotSteps (int a) (int b) = some ((int a).div (int b))
  modSteps : remSteps (int a) (int b) = some ((int a).mod (int b))
  negSteps : (int a).negSteps = some (int a).neg

/-- What an opcode puts into its register. -/
def opcode [DoubleOps] (arrays : Arrays) (op : OpCode) (x y : Value) :
    Option (Except Fault Value) :=
  (Instr.binaryFn arrays op).map fun f => f x y

/-- The opcodes on any two values, by the operators. -/
structure OpcodeLaws [DoubleOps] (arrays : Arrays) (x y : Value) : Prop where
  add : opcode arrays .add x y = some (x.add y)
  sub : opcode arrays .sub x y = some (x.sub y)
  mul : opcode arrays .mul x y = some (x.mul y)
  div : opcode arrays .div x y = some (x.div y)
  mod : opcode arrays .mod x y = some (x.mod y)
  unm : (Instr.unaryFn arrays .unm).map (fun f => f x) = some (.ok x.neg)

/-- The two bodies of each overflow test. -/
structure PortableLaws (a b : Int64) : Prop where
  add : addOvfPortable a b = addOvf a b
  sub : subOvfPortable a b = subOvf a b
  mul : mulOvfPortable a b = some (mulOvf a b)

section Results

variable {a b i : Int64} {n : Int} {whole : Option Int} {d : Double}

theorem exact_int (h : i.toInt = n) : ExactOrPromoted (some n) (.ok (.int i)) where
  exact j := by
    rw [Except.ok.injEq, int.injEq, Option.some.injEq, ← h, Int64.toInt_inj]
  promoted hno := absurd (congrArg some h.symm) (hno i)

theorem promoted_float (h : ∀ i : Int64, whole ≠ some i.toInt) :
    ExactOrPromoted whole (.ok (.float d)) where
  exact i := by
    constructor
    · intro h'
      cases h'
    · exact fun h' => absurd h' (h i)
  promoted _ := ⟨d, rfl⟩

theorem ne_of_not_fits (h : ¬Fits n) (i : Int64) : some n ≠ some i.toInt := by
  intro heq
  exact h (Option.some.inj heq ▸ fits_toInt i)

/-- The overflow test of the source. -/
theorem int64Checked_eq {exact : Int → Int → Int} :
    int64Checked exact a b =
      if (builtin exact a b).1 then Option.none else some (builtin exact a b).2 := by
  rw [int64Checked, builtin]
  by_cases h : Fits (exact a.toInt b.toInt)
  · obtain ⟨hmin, hmax⟩ := h
    have hno : ¬(exact a.toInt b.toInt < int64Min ∨ int64Max < exact a.toInt b.toInt) := by omega
    simp [Fits, hmin, hmax, hno]
  · have hyes : exact a.toInt b.toInt < int64Min ∨ int64Max < exact a.toInt b.toInt := by
      rw [Fits] at h
      omega
    simp [h, hyes]

end Results

theorem portableLaws (a b : Int64) : PortableLaws a b where
  add := addOvfPortable_eq a b
  sub := subOvfPortable_eq a b
  mul := mulOvfPortable_eq a b

section Proofs

variable [DoubleOps] {a b : Int64} {x y : Value}

theorem arith_int (exact : Int → Int → Int) (approx : Double → Double → Double) (a b : Int64) :
    ExactOrPromoted (some (exact a.toInt b.toInt)) (arith exact approx (int a) (int b)) := by
  by_cases h : Fits (exact a.toInt b.toInt)
  · have hchecked : int64Checked exact a b = some (.ofInt (exact a.toInt b.toInt)) := by
      simp [int64Checked_eq, builtin, h]
    have hvalue : arith exact approx (int a) (int b) = .ok (.int (.ofInt (exact a.toInt b.toInt))) := by
      simp [arith, arithCheck, isFloat, toInt, hchecked, bind, Except.bind, pure, Except.pure]
    rw [hvalue]
    exact exact_int (toInt_ofInt h)
  · have hchecked : int64Checked exact a b = Option.none := by
      simp [int64Checked_eq, builtin, h]
    have hvalue : arith exact approx (int a) (int b) =
        .ok (.float (approx (DoubleOps.ofInt64 a) (DoubleOps.ofInt64 b))) := by
      simp [arith, arithCheck, isFloat, toInt, hchecked, bind, Except.bind, pure, Except.pure]
    rw [hvalue]
    exact promoted_float (ne_of_not_fits h)

theorem neg_int (a : Int64) : ExactOrPromoted (some (-a.toInt)) (.ok (int a).neg) := by
  by_cases h : a.toInt = int64Min
  · have hvalue : (int a).neg = .float (DoubleOps.neg (DoubleOps.ofInt64 a)) := if_pos h
    rw [hvalue, h]
    exact promoted_float (ne_of_not_fits (by decide))
  · have hvalue : (int a).neg = .int (-a) := if_neg h
    rw [hvalue]
    refine exact_int ?_
    have hfits : Fits (-a.toInt) := by
      have ha := fits_toInt a
      rw [Fits, int64Min, int64Max] at ha ⊢
      rw [int64Min] at h
      omega
    rw [← toInt_ofInt hfits, Int64.ofInt_neg, Int64.ofInt_toInt]

theorem mod_int (a : Int64) (hb : b ≠ 0) :
    ExactOrPromoted (some (a.toInt.tmod b.toInt)) ((int a).mod (int b)) := by
  by_cases hone : b = -1
  · have hvalue : (int a).mod (int b) = .ok (.int 0) := by
      subst hone
      rfl
    rw [hvalue, hone]
    refine exact_int ?_
    have hmod : a.toInt.tmod (-1) = 0 := by rw [Int.tmod_neg, Int.tmod_one]
    exact hmod.symm
  · have hvalue : (int a).mod (int b) = .ok (.int (a % b)) := by
      simp [mod, arithCheck, toInt, hb, hone, bind, Except.bind, pure, Except.pure]
    rw [hvalue]
    exact exact_int (Int64.toInt_mod a b)

/-- The divisor is compared with 0 as a float. -/
theorem div_int (a : Int64) (hb : b ≠ 0)
    (hzero : DoubleOps.eq (DoubleOps.ofInt64 b) Double.zero = false) :
    ExactOrPromoted (wholeQuotient a.toInt b.toInt) ((int a).div (int b)) := by
  have hb0 : b.toInt ≠ 0 := fun h => hb (Int64.toInt_inj.mp h)
  have hstart : (int a).div (int b) =
      if b = -1 ∧ a.toInt = int64Min then .ok (.float (DoubleOps.neg (DoubleOps.ofInt64 a)))
      else if b ≠ 0 ∧ a % b = 0 then .ok (.int (a / b))
      else .ok (.float (DoubleOps.div (DoubleOps.ofInt64 a) (DoubleOps.ofInt64 b))) := by
    simp only [div, arithCheck, isFloat, toInt, toFloat, hzero, bind, Except.bind, pure,
      Except.pure]
    rfl
  rw [hstart]
  by_cases hguard : b = -1 ∧ a.toInt = int64Min
  · obtain ⟨rfl, ha⟩ := hguard
    rw [if_pos ⟨rfl, ha⟩, ha]
    exact promoted_float (ne_of_not_fits (by decide))
  · have htraps : ¬Traps a b := fun h => h.elim hb fun h' => hguard h'.symm
    rw [if_neg hguard]
    by_cases hmod : a % b = 0
    · have hdvd : b.toInt ∣ a.toInt := by
        rw [Int.dvd_iff_tmod_eq_zero, ← Int64.toInt_mod, hmod]
        rfl
      rw [if_pos ⟨hb, hmod⟩, wholeQuotient, if_pos hdvd]
      refine exact_int ?_
      rw [toInt_div htraps, Int.tdiv_eq_ediv_of_dvd hdvd]
    · have hdvd : ¬b.toInt ∣ a.toInt := by
        rw [Int.dvd_iff_tmod_eq_zero, ← Int64.toInt_mod]
        exact fun h => hmod (Int64.toInt_inj.mp h)
      rw [if_neg (fun h => hmod h.2), wholeQuotient, if_neg hdvd]
      exact promoted_float fun i h => nomatch h

theorem quotSteps_eq (hx : x.arithCheck = .ok ()) (hy : y.arithCheck = .ok ()) :
    quotSteps x y = some (x.div y) := by
  have hdiv : x.div y = (do
      if DoubleOps.eq y.toFloat Double.zero then throw (.error "Division by zero")
      if x.isFloat || y.isFloat then return .float (DoubleOps.div x.toFloat y.toFloat)
      if y.toInt = -1 ∧ x.toInt.toInt = int64Min then
        return .float (DoubleOps.neg (DoubleOps.ofInt64 x.toInt))
      if y.toInt ≠ 0 ∧ x.toInt % y.toInt = 0 then return .int (x.toInt / y.toInt)
      return .float (DoubleOps.div x.toFloat y.toFloat)) := by
    rw [div, hx, hy]
    rfl
  rw [hdiv, quotSteps]
  by_cases hzero : DoubleOps.eq y.toFloat Double.zero
  · simp [hzero]
    rfl
  · by_cases hfloat : x.isFloat || y.isFloat
    · simp [hzero, hfloat]
      rfl
    · by_cases hguard : y.toInt = -1 ∧ x.toInt.toInt = int64Min
      · simp [hzero, hfloat, hguard]
        rfl
      · by_cases hi : y.toInt = 0
        · simp [hzero, hfloat, hi]
          rfl
        · have htraps : ¬Traps x.toInt y.toInt := fun h => h.elim hi fun h' => hguard h'.symm
          have hrem : rem x.toInt y.toInt = some (x.toInt % y.toInt) := if_neg htraps
          have hquot : quot x.toInt y.toInt = some (x.toInt / y.toInt) := if_neg htraps
          by_cases hmod : x.toInt % y.toInt = 0
          · simp [hzero, hfloat, hguard, hi, hrem, hquot, hmod]
            rfl
          · simp [hzero, hfloat, hguard, hi, hrem, hmod]
            rfl

theorem remSteps_eq (hx : x.arithCheck = .ok ()) (hy : y.arithCheck = .ok ()) :
    remSteps x y = some (x.mod y) := by
  have hmod : x.mod y = (do
      if y.toInt = 0 then throw (.error "Modulo by zero")
      if y.toInt = -1 then return .int 0
      return .int (x.toInt % y.toInt)) := by
    rw [mod, hx, hy]
    rfl
  rw [hmod, remSteps]
  by_cases hzero : y.toInt = 0
  · simp [hzero]
    rfl
  · by_cases hone : y.toInt = -1
    · simp [hone]
      rfl
    · have hrem : rem x.toInt y.toInt = some (x.toInt % y.toInt) :=
        if_neg fun h => h.elim hzero fun h' => hone h'.2
      simp [hzero, hone, hrem]
      rfl

theorem negSteps_eq (x : Value) : x.negSteps = some x.neg := by
  cases x with
  | float d => rfl
  | _ =>
    simp only [negSteps, neg, negate]
    split <;> rfl

/-- What the fast path computes is what the operator computes. -/
theorem fastArith_eq (exact : Int → Int → Int) (approx : Double → Double → Double) (x y : Value) :
    Instr.fastArith exact (arith exact approx) x y = arith exact approx x y := by
  rw [Instr.fastArith.eq_def]
  split
  · next a b =>
    cases h : int64Checked exact a b with
    | none => rfl
    | some r =>
      simp [arith, arithCheck, isFloat, toInt, h, bind, Except.bind, pure, Except.pure]
  · rfl

theorem opcodeLaws (arrays : Arrays) (x y : Value) : OpcodeLaws arrays x y where
  add := congrArg some (fastArith_eq (· + ·) DoubleOps.add x y)
  sub := congrArg some (fastArith_eq (· - ·) DoubleOps.sub x y)
  mul := congrArg some (fastArith_eq (· * ·) DoubleOps.mul x y)
  div := rfl
  mod := rfl
  unm := rfl

/-- A divisor is found to be zero exactly when it is. -/
theorem integerLaws (a b : Int64)
    (hzero : DoubleOps.eq (DoubleOps.ofInt64 b) Double.zero = decide (b = 0)) :
    IntegerLaws a b where
  add := arith_int (· + ·) DoubleOps.add a b
  sub := arith_int (· - ·) DoubleOps.sub a b
  mul := arith_int (· * ·) DoubleOps.mul a b
  neg := neg_int a
  div hb := div_int a hb (hzero.trans (decide_eq_false hb))
  mod hb := mod_int a hb
  divZero hb := by
    have hyes : DoubleOps.eq (DoubleOps.ofInt64 b) Double.zero = true :=
      hzero.trans (decide_eq_true hb)
    simp only [div, arithCheck, toFloat, hyes, bind, Except.bind]
    rfl
  modZero hb := by
    subst hb
    rfl
  divSteps := quotSteps_eq rfl rfl
  modSteps := remSteps_eq rfl rfl
  negSteps := negSteps_eq (int a)

end Proofs

theorem ieee_eq_zero (lib : DoubleOps) (b : Int64) :
    (DoubleOps.ieee lib).eq ((DoubleOps.ieee lib).ofInt64 b) Double.zero = decide (b = 0) := by
  have hiff : Binary64.eq (Binary64.ofInt b.toInt) 0 = true ↔ b = 0 := by
    rw [Binary64.eq_iff (Binary64.isNaN_ofInt b.toInt) (by decide +kernel),
      show Binary64.scaled 0 = 0 by decide +kernel, Binary64.scaled_ofInt_eq_zero]
    exact Int64.toInt_inj (y := 0)
  exact Bool.eq_iff_iff.mpr (hiff.trans decide_eq_true_iff.symm)

/-- Arithmetic on integers is exact or promoted, without a trap, in the operators and in the
opcodes alike. -/
theorem integer_arithmetic (lib : DoubleOps) (arrays : Arrays) (a b : Int64) :
    letI := DoubleOps.ieee lib
    IntegerLaws a b ∧ OpcodeLaws arrays (int a) (int b) ∧ PortableLaws a b :=
  ⟨@integerLaws (.ieee lib) a b (ieee_eq_zero lib b), @opcodeLaws (.ieee lib) arrays (int a) (int b),
    portableLaws a b⟩

end Value

end Look
