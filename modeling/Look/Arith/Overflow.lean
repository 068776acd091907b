/-
`int_overflow.h`: the overflow tests on 64-bit integers.

Each test has two bodies, and both write the low 64 bits of the result.  One is a builtin of the
compiler.  The other wraps around in unsigned arithmetic and reads the overflow off the signs, or
off a quotient.  A division is `none` where the processor traps or the language leaves it
undefined, and so is a negation.
-/
import Mathlib.Algebra.Group.Int.Defs
import Mathlib.Algebra.Group.Nat.Defs
import Look.Value

namespace Look

namespace Machine64

/-! ## What the machine does -/

/-- A number that an `int64_t` holds. -/
def Fits (n : Int) : Prop := int64Min ≤ n ∧ n ≤ int64Max

instance (n : Int) : Decidable (Fits n) := inferInstanceAs (Decidable (_ ∧ _))

/-- The one quotient of two integers that does not fit, and a division by zero. -/
def Traps (a b : Int64) : Prop := b = 0 ∨ a.toInt = int64Min ∧ b = -1

instance (a b : Int64) : Decidable (Traps a b) := inferInstanceAs (Decidable (_ ∨ _))

def quot (a b : Int64) : Option Int64 := if Traps a b then none else some (a / b)

def rem (a b : Int64) : Option Int64 := if Traps a b then none else some (a % b)

def negate (a : Int64) : Option Int64 := if a.toInt = int64Min then none else some (-a)

/-! ## The tests -/

/-- `__builtin_add_overflow` and its siblings. -/
def builtin (exact : Int → Int → Int) (a b : Int64) : Bool × Int64 :=
  (!decide (Fits (exact a.toInt b.toInt)), Int64.ofInt (exact a.toInt b.toInt))

def addOvf : Int64 → Int64 → Bool × Int64 := builtin (· + ·)

def subOvf : Int64 → Int64 → Bool × Int64 := builtin (· - ·)

def mulOvf : Int64 → Int64 → Bool × Int64 := builtin (· * ·)

def addOvfPortable (a b : Int64) : Bool × Int64 :=
  let r := (a.toUInt64 + b.toUInt64).toInt64
  (decide ((a ^^^ r) &&& (b ^^^ r) < 0), r)

def subOvfPortable (a b : Int64) : Bool × Int64 :=
  let r := (a.toUInt64 - b.toUInt64).toInt64
  (decide ((a ^^^ b) &&& (a ^^^ r) < 0), r)

/-- The guard comes before the division, which would trap. -/
def mulOvfPortable (a b : Int64) : Option (Bool × Int64) := do
  let r := (a.toUInt64 * b.toUInt64).toInt64
  if a = -1 ∧ b.toInt = int64Min then return (true, r)
  if a ≠ 0 then
    if (← quot r a) ≠ b then return (true, r)
  return (false, r)

/-! ## Their agreement -/

variable {a b r : Int64} {n : Int}

theorem fits_toInt (a : Int64) : Fits a.toInt := by
  have hle := a.le_toInt
  have hlt := a.toInt_lt
  rw [Fits, int64Min, int64Max]
  omega

theorem toInt_ofInt (h : Fits n) : (Int64.ofInt n).toInt = n := by
  obtain ⟨hmin, hmax⟩ := h
  rw [int64Min] at hmin
  rw [int64Max] at hmax
  exact Int64.toInt_ofInt_of_le (by omega) (by omega)

theorem lt_zero (a : Int64) : decide (a < 0) = a.toBitVec.msb := by
  rw [BitVec.msb_eq_toInt]
  exact decide_eq_decide.mpr Int64.lt_iff_toInt_lt

theorem not_fits : (!decide (Fits n)) = (decide (2 ^ (64 - 1) ≤ n) || decide (n < -2 ^ (64 - 1))) := by
  rw [← Bool.decide_or, ← decide_not]
  refine decide_eq_decide.mpr ?_
  rw [Fits, int64Min, int64Max]
  omega

/-- The signs of both operands differ from the sign of the sum. -/
theorem addOvfPortable_eq (a b : Int64) : addOvfPortable a b = addOvf a b := by
  have hvalue : (a.toUInt64 + b.toUInt64).toInt64 = a + b := rfl
  have hsign : decide ((a ^^^ (a + b)) &&& (b ^^^ (a + b)) < 0) =
      a.toBitVec.saddOverflow b.toBitVec := by
    rw [BitVec.saddOverflow_eq, lt_zero, Int64.toBitVec_and,
      Int64.toBitVec_xor, Int64.toBitVec_xor, Int64.toBitVec_add,
      BitVec.msb_and, BitVec.msb_xor, BitVec.msb_xor]
    cases a.toBitVec.msb <;> cases b.toBitVec.msb <;> cases (a.toBitVec + b.toBitVec).msb <;> rfl
  rw [addOvfPortable, addOvf, builtin, hvalue, hsign, not_fits, Int64.ofInt_add, Int64.ofInt_toInt,
    Int64.ofInt_toInt]
  rfl

/-- The operands differ in sign, and the difference has not the sign of the first. -/
theorem subOvfPortable_eq (a b : Int64) : subOvfPortable a b = subOvf a b := by
  have hvalue : (a.toUInt64 - b.toUInt64).toInt64 = a - b := rfl
  have hsign : decide ((a ^^^ b) &&& (a ^^^ (a - b)) < 0) =
      a.toBitVec.ssubOverflow b.toBitVec := by
    rw [BitVec.ssubOverflow_eq, lt_zero, Int64.toBitVec_and,
      Int64.toBitVec_xor, Int64.toBitVec_xor, Int64.toBitVec_sub,
      BitVec.msb_and, BitVec.msb_xor, BitVec.msb_xor]
    cases a.toBitVec.msb <;> cases b.toBitVec.msb <;> cases (a.toBitVec - b.toBitVec).msb <;> rfl
  rw [subOvfPortable, subOvf, builtin, hvalue, hsign, not_fits, Int64.ofInt_sub, Int64.ofInt_toInt,
    Int64.ofInt_toInt]
  rfl

theorem toInt_div (h : ¬Traps a b) : (a / b).toInt = a.toInt.tdiv b.toInt := by
  by_cases hb : b = -1
  · refine Int64.toInt_div_of_ne_left a b fun ha => h (.inr ⟨?_, hb⟩)
    rw [ha]
    rfl
  · exact Int64.toInt_div_of_ne_right a b hb

theorem toInt_mul (a b : Int64) : ∃ k, (a * b).toInt + k * 2 ^ 64 = a.toInt * b.toInt := by
  refine ⟨(a.toInt * b.toInt).bdiv (2 ^ 64), ?_⟩
  rw [Int64.toInt_mul]
  exact Int.bmod_add_bdiv' _ _

/-- A product that wraps around is off by 2^64, more than a remainder can make up for. -/
theorem tdiv_mul_eq (ha : a ≠ 0) : (a * b).toInt.tdiv a.toInt = b.toInt ↔ Fits (a.toInt * b.toInt) := by
  have ha0 : a.toInt ≠ 0 := fun h => ha (Int64.toInt_inj.mp h)
  obtain ⟨k, hk⟩ := toInt_mul a b
  constructor
  · intro hb
    have hdiv := Int.mul_tdiv_add_tmod (a * b).toInt a.toInt
    rw [hb] at hdiv
    have hrem : ((a * b).toInt.tmod a.toInt).natAbs < a.toInt.natAbs := by
      rw [Int.natAbs_tmod]
      exact Nat.mod_lt _ (Int.natAbs_pos.mpr ha0)
    have hfa := fits_toInt a
    have hfr := fits_toInt (a * b)
    rw [Fits, int64Min, int64Max] at hfa hfr ⊢
    omega
  · intro hfits
    have hr : (a * b).toInt = a.toInt * b.toInt := by
      have hfr := fits_toInt (a * b)
      rw [Fits, int64Min, int64Max] at hfits hfr
      omega
    rw [hr]
    exact Int.mul_tdiv_cancel_left _ ha0

/-- The product of the guard. -/
theorem traps_mul_iff (ha : a ≠ 0) : Traps (a * b) a ↔ a = -1 ∧ b.toInt = int64Min := by
  constructor
  · rintro (hzero | ⟨hmin, rfl⟩)
    · exact absurd hzero ha
    · refine ⟨rfl, ?_⟩
      obtain ⟨k, hk⟩ := toInt_mul (-1) b
      have hone : (-1 : Int64).toInt = -1 := rfl
      have hb := fits_toInt b
      rw [Fits, int64Min, int64Max] at hb
      rw [hmin, hone] at hk
      rw [int64Min] at hk ⊢
      omega
  · rintro ⟨rfl, hb⟩
    refine .inr ⟨?_, rfl⟩
    obtain rfl : b = Int64.minValue := Int64.toInt_inj.mp hb
    rfl

theorem mulOvfPortable_eq (a b : Int64) : mulOvfPortable a b = some (mulOvf a b) := by
  have hvalue : (a.toUInt64 * b.toUInt64).toInt64 = a * b := rfl
  have hlow : mulOvf a b = (!decide (Fits (a.toInt * b.toInt)), a * b) := by
    rw [mulOvf, builtin, Int64.ofInt_mul, Int64.ofInt_toInt, Int64.ofInt_toInt]
  rw [mulOvfPortable, hvalue, hlow]
  by_cases ha : a = 0
  · subst ha
    have hfits : Fits (Int64.toInt 0 * b.toInt) := by
      rw [Int64.toInt_zero, Int.zero_mul]
      decide
    rw [if_neg (by simp), if_neg (by simp), decide_eq_true hfits]
    rfl
  · by_cases hguard : a = -1 ∧ b.toInt = int64Min
    · have hover : ¬Fits (a.toInt * b.toInt) := by
        rw [hguard.1, hguard.2]
        decide
      rw [if_pos hguard, decide_eq_false hover]
      rfl
    · have htraps : ¬Traps (a * b) a := mt (traps_mul_iff ha).mp hguard
      have hquot : quot (a * b) a = some (a * b / a) := if_neg htraps
      have hback : a * b / a ≠ b ↔ ¬Fits (a.toInt * b.toInt) := by
        rw [← tdiv_mul_eq ha, ← toInt_div htraps, Ne, Int64.toInt_inj]
      rw [if_neg hguard, if_pos ha, hquot]
      by_cases hfits : Fits (a.toInt * b.toInt)
      · rw [decide_eq_true hfits]
        have hno : ¬a * b / a ≠ b := fun h => hback.mp h hfits
        simp [hno]
      · rw [decide_eq_false hfits]
        have hyes : a * b / a ≠ b := hback.mpr hfits
        simp [hyes]

end Machine64

end Look
