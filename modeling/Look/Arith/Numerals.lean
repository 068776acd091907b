/-
Strings as operands of arithmetic.

`arith_check` takes a string that `stoll` or `stod` reads to its end.  The operators convert it
by the types of both operands: with a FLOAT by `stod`, otherwise by `stoll`, which stops at the
first character that is no digit.  So "5.5" is accepted, and adds 5 to an INT.
`numeric_strings` says that the strings `stoll` reads to their end are all that count as the
number they denote, and that a FLOAT on the other side makes every accepted string do so, except
for `%`, which has no conversion to floats.
-/
import Look.Arith.Ieee

namespace Look

namespace Value

/-! ## The number of a string -/

/-- The exact value, in units of 2^-1074.  A NaN has none. -/
def quantity : Value → Option Int
  | .int i => some (i.toInt * Binary64.one)
  | .float d => if Binary64.isNaN d.bits then Option.none else some (Binary64.scaled d.bits)
  | _ => Option.none

/-- Two results are the same number, or the same error. -/
def SameNumber : Except Fault Value → Except Fault Value → Prop
  | .ok x, .ok y => x.isNumber ∧ y.isNumber ∧ x.quantity = y.quantity
  | .error e, .error f => e = f
  | _, _ => False

inductive NumOp where
  | add
  | sub
  | mul
  | div
  | mod
deriving DecidableEq

section Claims

variable [DoubleOps]

def NumOp.apply : NumOp → Value → Value → Except Fault Value
  | .add => Value.add
  | .sub => Value.sub
  | .mul => Value.mul
  | .div => Value.div
  | .mod => Value.mod

def Accepted (s : String) : Prop := (string s).arithCheck = .ok ()

/-- `stoll` reads the text to its end. -/
def IsInteger (s : String) : Prop := (stoll s).consumed = some s.length

instance (s : String) : Decidable (IsInteger s) := inferInstanceAs (Decidable (_ = _))

/-- The number that an accepted text denotes. -/
def denoted (s : String) : Value :=
  if IsInteger s then .int (string s).toInt else .float (string s).toFloat

/-- With every number on the other side, the text gives what its number gives, or an error when
it denotes none. -/
structure CountsAsNumber (s : String) : Prop where
  left : Accepted s → ∀ op x, x.isNumber →
    SameNumber (NumOp.apply op (.string s) x) (NumOp.apply op (denoted s) x)
  right : Accepted s → ∀ op x, x.isNumber →
    SameNumber (NumOp.apply op x (.string s)) (NumOp.apply op x (denoted s))
  rejected : ¬Accepted s → ∀ op x, x.isNumber →
    (∃ e, NumOp.apply op (.string s) x = .error e) ∧ ∃ e, NumOp.apply op x (.string s) = .error e

end Claims

theorem exists_stoll {s : String} (h : IsInteger s) : ∃ i, stoll s = .ok i s.length := by
  rw [IsInteger] at h
  cases hr : stoll s with
  | ok i pos =>
    rw [hr] at h
    exact ⟨i, by rw [Option.some.inj h]⟩
  | invalidArgument =>
    rw [hr] at h
    cases h
  | outOfRange =>
    rw [hr] at h
    cases h

/-! ## Checks -/

section Checks

variable [DoubleOps] {x y : Value} {e : Fault} {op : NumOp}

theorem arithCheck_of_isNumber (h : x.isNumber) : x.arithCheck = .ok () := by
  cases x <;> first | rfl | cases h

variable (op) in
theorem apply_left_error (h : x.arithCheck = .error e) : op.apply x y = .error e := by
  cases op <;> simp only [NumOp.apply, add, sub, mul, arith, div, mod, h, bind, Except.bind]

variable (op) in
theorem apply_right_error (hx : x.arithCheck = .ok ()) (h : y.arithCheck = .error e) :
    op.apply x y = .error e := by
  cases op <;> simp only [NumOp.apply, add, sub, mul, arith, div, mod, hx, h, bind, Except.bind]

theorem arith_of_checks {exact : Int → Int → Int} {approx : Double → Double → Double}
    (hx : x.arithCheck = .ok ()) (hy : y.arithCheck = .ok ()) :
    arith exact approx x y =
      if x.isFloat || y.isFloat then .ok (.float (approx x.toFloat y.toFloat))
      else match int64Checked exact x.toInt y.toInt with
        | some r => .ok (.int r)
        | Option.none =>
          .ok (.float (approx (DoubleOps.ofInt64 x.toInt) (DoubleOps.ofInt64 y.toInt))) := by
  rw [arith, hx, hy]
  cases x.isFloat || y.isFloat with
  | true => rfl
  | false => cases hr : int64Checked exact x.toInt y.toInt <;> rfl

theorem add_toInt (hx : x.arithCheck = .ok ()) (hfloat : x.isFloat = false) (i : Int64) :
    add x (.int i) = add (.int x.toInt) (.int i) := by
  rw [add, arith_of_checks hx rfl, arith_of_checks rfl rfl, hfloat]
  rfl

theorem div_of_checks (hx : x.arithCheck = .ok ()) (hy : y.arithCheck = .ok ()) :
    x.div y =
      if DoubleOps.eq y.toFloat Double.zero then .error (.error "Division by zero")
      else if x.isFloat || y.isFloat then .ok (.float (DoubleOps.div x.toFloat y.toFloat))
      else if y.toInt = -1 ∧ x.toInt.toInt = int64Min then
        .ok (.float (DoubleOps.neg (DoubleOps.ofInt64 x.toInt)))
      else if y.toInt ≠ 0 ∧ x.toInt % y.toInt = 0 then .ok (.int (x.toInt / y.toInt))
      else .ok (.float (DoubleOps.div x.toFloat y.toFloat)) := by
  rw [div, hx, hy]
  cases hzero : DoubleOps.eq y.toFloat Double.zero with
  | true => simp [hzero]; rfl
  | false => simp only [hzero]; rfl

theorem mod_of_checks (hx : x.arithCheck = .ok ()) (hy : y.arithCheck = .ok ()) :
    x.mod y =
      if y.toInt = 0 then .error (.error "Modulo by zero")
      else if y.toInt = -1 then .ok (.int 0)
      else .ok (.int (x.toInt % y.toInt)) := by
  rw [mod, hx, hy]
  rfl

variable (op) in
/-- With a FLOAT on one side, what is not one is converted. -/
theorem apply_float (hx : x.arithCheck = .ok ()) (hop : op ≠ .mod) (d : Double) :
    op.apply x (.float d) = op.apply (.float x.toFloat) (.float d) ∧
      op.apply (.float d) x = op.apply (.float d) (.float x.toFloat) := by
  have harith : ∀ {exact : Int → Int → Int} {approx : Double → Double → Double},
      arith exact approx x (.float d) = arith exact approx (.float x.toFloat) (.float d) ∧
        arith exact approx (.float d) x = arith exact approx (.float d) (.float x.toFloat) := by
    intro exact approx
    rw [arith_of_checks hx rfl, arith_of_checks rfl hx, arith_of_checks rfl rfl,
      arith_of_checks rfl rfl]
    simp [isFloat, toFloat]
  cases op with
  | add => exact harith
  | sub => exact harith
  | mul => exact harith
  | div =>
    simp only [NumOp.apply]
    rw [div_of_checks hx rfl, div_of_checks rfl hx, div_of_checks rfl rfl, div_of_checks rfl rfl]
    simp [isFloat, toFloat]
  | mod => exact absurd rfl hop

/-! ## Accepted strings -/

variable {s : String}

theorem arithCheck_integer {i : Int64} (h : stoll s = .ok i s.length) :
    (string s).arithCheck = .ok () := by
  have hne : s ≠ "" := by
    rintro rfl
    cases h
  rw [arithCheck, if_neg hne, h]
  exact if_pos rfl

theorem denoted_integer {i : Int64} (h : stoll s = .ok i s.length) :
    denoted s = .int i := by
  have hint : IsInteger s := by
    rw [IsInteger, h]
    rfl
  rw [denoted, if_pos hint, toInt, h]

theorem denoted_float (h : ¬IsInteger s) :
    denoted s = .float (string s).toFloat := if_neg h

end Checks

/-! ## Operands that are alike -/

section Ieee

variable {lib : DoubleOps} {x x' y : Value} {op : NumOp} {d d' : Double}

/-- Two values that arithmetic converts alike, up to the sign of a zero. -/
structure Converts (lib : DoubleOps) (x x' : Value) : Prop where
  check : @arithCheck (.ieee lib) x = .ok ()
  check' : @arithCheck (.ieee lib) x' = .ok ()
  isFloat : x.isFloat = x'.isFloat
  toInt : @toInt (.ieee lib) x = @toInt (.ieee lib) x'
  toFloat : Binary64.Alike (@toFloat (.ieee lib) x).bits (@toFloat (.ieee lib) x').bits

theorem sameNumber_float (h : Binary64.Alike d.bits d'.bits) :
    SameNumber (.ok (.float d)) (.ok (.float d')) := by
  refine ⟨rfl, rfl, ?_⟩
  rw [quantity, quantity, h.isNaN, h.scaled]

theorem sameNumber_int (i : Int64) : SameNumber (.ok (.int i)) (.ok (.int i)) := ⟨rfl, rfl, rfl⟩

section Congruence

variable {exact : Int → Int → Int} {approx : Double → Double → Double}

theorem arith_left
    (happrox : ∀ {c c' : Double} (z : Double), Binary64.Alike c.bits c'.bits →
      Binary64.Alike (approx c z).bits (approx c' z).bits)
    (h : Converts lib x x') (y : Value) :
    SameNumber (@arith (.ieee lib) exact approx x y) (@arith (.ieee lib) exact approx x' y) := by
  let _ := DoubleOps.ieee lib
  rw [arith, arith, h.check, h.check', h.isFloat, h.toInt]
  cases y.arithCheck with
  | error e => rfl
  | ok _ =>
    cases hf : x'.isFloat || y.isFloat with
    | true => exact sameNumber_float (happrox y.toFloat h.toFloat)
    | false =>
      cases hr : int64Checked exact x'.toInt y.toInt with
      | none => exact sameNumber_float (.inl rfl)
      | some r => exact sameNumber_int r

theorem arith_right
    (happrox : ∀ {c c' : Double} (z : Double), Binary64.Alike c.bits c'.bits →
      Binary64.Alike (approx z c).bits (approx z c').bits)
    (h : Converts lib x x') (y : Value) :
    SameNumber (@arith (.ieee lib) exact approx y x) (@arith (.ieee lib) exact approx y x') := by
  let _ := DoubleOps.ieee lib
  rw [arith, arith, h.check, h.check', h.isFloat, h.toInt]
  cases y.arithCheck with
  | error e => rfl
  | ok _ =>
    cases hf : y.isFloat || x'.isFloat with
    | true => exact sameNumber_float (happrox y.toFloat h.toFloat)
    | false =>
      cases hr : int64Checked exact y.toInt x'.toInt with
      | none => exact sameNumber_float (.inl rfl)
      | some r => exact sameNumber_int r

end Congruence

theorem magnitude_ne_zero (h : ¬Binary64.eq d.bits 0 = true) : Binary64.magnitude d.bits ≠ 0 := by
  intro hzero
  refine h ((Binary64.eq_iff (Binary64.isNaN_of_zero hzero) (by decide +kernel)).mpr ?_)
  rw [Binary64.scaled_of_zero hzero]
  decide +kernel

theorem div_left (h : Converts lib x x') (y : Value) :
    SameNumber (@div (.ieee lib) x y) (@div (.ieee lib) x' y) := by
  let _ := DoubleOps.ieee lib
  cases hy : y.arithCheck with
  | error e =>
    have herror : ∀ {v : Value}, v.arithCheck = .ok () → v.div y = .error e :=
      fun hv => apply_right_error .div hv hy
    rw [herror h.check, herror h.check']
    rfl
  | ok _ =>
    rw [div_of_checks h.check hy, div_of_checks h.check' hy, h.isFloat, h.toInt]
    by_cases hzero : DoubleOps.eq y.toFloat Double.zero = true
    · rw [if_pos hzero, if_pos hzero]
      rfl
    · have hquot : SameNumber (.ok (.float (DoubleOps.div x.toFloat y.toFloat)))
          (.ok (.float (DoubleOps.div x'.toFloat y.toFloat))) :=
        sameNumber_float (Binary64.alike_div_left h.toFloat (magnitude_ne_zero hzero))
      rw [if_neg hzero, if_neg hzero]
      split
      · exact hquot
      · split
        · exact sameNumber_float (.inl rfl)
        · split
          · exact sameNumber_int _
          · exact hquot

theorem div_right (h : Converts lib x x') (y : Value) :
    SameNumber (@div (.ieee lib) y x) (@div (.ieee lib) y x') := by
  let _ := DoubleOps.ieee lib
  cases hy : y.arithCheck with
  | error e =>
    have herror : ∀ {v : Value}, y.div v = .error e := apply_left_error .div hy
    rw [herror, herror]
    rfl
  | ok _ =>
    rw [div_of_checks hy h.check, div_of_checks hy h.check', h.isFloat, h.toInt]
    have hsame : DoubleOps.eq x.toFloat Double.zero = DoubleOps.eq x'.toFloat Double.zero :=
      h.toFloat.eq 0
    by_cases hzero : DoubleOps.eq x'.toFloat Double.zero = true
    · rw [hsame, if_pos hzero, if_pos hzero]
      rfl
    · have hbits : x.toFloat = x'.toFloat := by
        rcases h.toFloat with heq | ⟨-, hmag⟩
        · cases hx : x.toFloat
          cases hx' : x'.toFloat
          rw [hx, hx'] at heq
          exact congrArg Double.mk heq
        · exact absurd hmag (magnitude_ne_zero hzero)
      rw [hbits, if_neg hzero]
      split
      · exact sameNumber_float (.inl rfl)
      · split
        · exact sameNumber_float (.inl rfl)
        · split
          · exact sameNumber_int _
          · exact sameNumber_float (.inl rfl)

theorem sameNumber_mod {i j : Int64} :
    SameNumber
      (if j = 0 then .error (.error "Modulo by zero")
        else if j = -1 then .ok (.int 0) else .ok (.int (i % j)))
      (if j = 0 then .error (.error "Modulo by zero")
        else if j = -1 then .ok (.int 0) else .ok (.int (i % j))) := by
  split
  · rfl
  · split <;> exact sameNumber_int _

theorem mod_left (h : Converts lib x x') (y : Value) :
    SameNumber (@mod (.ieee lib) x y) (@mod (.ieee lib) x' y) := by
  let _ := DoubleOps.ieee lib
  cases hy : y.arithCheck with
  | error e =>
    have herror : ∀ {v : Value}, v.arithCheck = .ok () → v.mod y = .error e :=
      fun hv => apply_right_error .mod hv hy
    rw [herror h.check, herror h.check']
    rfl
  | ok _ =>
    rw [mod_of_checks h.check hy, mod_of_checks h.check' hy, h.toInt]
    exact sameNumber_mod

theorem mod_right (h : Converts lib x x') (y : Value) :
    SameNumber (@mod (.ieee lib) y x) (@mod (.ieee lib) y x') := by
  let _ := DoubleOps.ieee lib
  cases hy : y.arithCheck with
  | error e =>
    have herror : ∀ {v : Value}, y.mod v = .error e := apply_left_error .mod hy
    rw [herror, herror]
    rfl
  | ok _ =>
    rw [mod_of_checks hy h.check, mod_of_checks hy h.check', h.toInt]
    exact sameNumber_mod

theorem apply_left (h : Converts lib x x') (op : NumOp) (y : Value) :
    SameNumber (@NumOp.apply (.ieee lib) op x y) (@NumOp.apply (.ieee lib) op x' y) := by
  cases op with
  | add => exact arith_left (fun z hc => Binary64.alike_add_left hc z.bits) h y
  | sub => exact arith_left (fun z hc => Binary64.alike_sub_left hc z.bits) h y
  | mul => exact arith_left (fun z hc => Binary64.alike_mul_left hc z.bits) h y
  | div => exact div_left h y
  | mod => exact mod_left h y

theorem apply_right (h : Converts lib x x') (op : NumOp) (y : Value) :
    SameNumber (@NumOp.apply (.ieee lib) op y x) (@NumOp.apply (.ieee lib) op y x') := by
  cases op with
  | add => exact arith_right (fun z hc => Binary64.alike_add_right hc z.bits) h y
  | sub => exact arith_right (fun z hc => Binary64.alike_sub_right hc z.bits) h y
  | mul => exact arith_right (fun z hc => Binary64.alike_mul_right hc z.bits) h y
  | div => exact div_right h y
  | mod => exact mod_right h y

/-! ## Integers -/

variable {s : String}

/-- What is converted by `stoll` alone is converted by `stod` to the same number. -/
theorem converts_integer {i : Int64} (h : stoll s = .ok i s.length) :
    Converts lib (.string s) (.int i) := by
  let _ := DoubleOps.ieee lib
  have htoInt : (string s).toInt = i := by
    rw [toInt, h]
  refine ⟨arithCheck_integer h, rfl, rfl, htoInt, ?_⟩
  obtain ⟨negative, ds, hint, hi⟩ := Strtod.integer_of_stoll h
  have hle := i.le_toInt
  have hlt := i.toInt_lt
  have hm : Strtod.valueOf 10 ds ≤ 2 ^ 63 := by
    split at hi <;> omega
  have hstod : (string s).toFloat =
      ⟨Binary64.round negative (Strtod.valueOf 10 ds * Binary64.one) 1⟩ := by
    rw [toFloat, DoubleOps.ieee_stod, Strtod.stod_integer hint hm]
    rfl
  have hofInt : (int i).toFloat =
      ⟨Binary64.round (i.toInt < 0) (i.toInt.natAbs * Binary64.one) 1⟩ := rfl
  have habs : i.toInt.natAbs = Strtod.valueOf 10 ds := by
    split at hi <;> omega
  rw [hstod, hofInt, habs]
  by_cases hzero : Strtod.valueOf 10 ds = 0
  · rw [hzero, Nat.zero_mul, Binary64.round_zero, Binary64.round_zero]
    exact Binary64.alike_pack_zero
  · have hsign : negative = decide (i.toInt < 0) := by
      cases negative with
      | true => exact (decide_eq_true (by simp at hi; omega)).symm
      | false => exact (decide_eq_false (by simp at hi; omega)).symm
    rw [← hsign]
    exact .inl rfl

/-! ## Other numbers -/

theorem sameNumber_apply_float :
    SameNumber (@NumOp.apply (.ieee lib) op (.float d) (.float d'))
      (@NumOp.apply (.ieee lib) op (.float d) (.float d')) := by
  have hconverts : Converts lib (.float d) (.float d) := ⟨rfl, rfl, rfl, rfl, .inl rfl⟩
  exact apply_left hconverts op _

variable (lib) in
/-- A sum that an INT has room for and a double has not. -/
theorem exists_unequal (n : Int64) (d : Double) : ∃ x : Int64,
    ¬SameNumber (@add (.ieee lib) (.int n) (.int x)) (@add (.ieee lib) (.float d) (.int x)) := by
  let _ := DoubleOps.ieee lib
  obtain ⟨t, habs, hmin, hmax⟩ : ∃ t : Int, t.natAbs = 2 ^ 53 + 1 ∧
      -2 ^ 63 ≤ t - n.toInt ∧ t - n.toInt < 2 ^ 63 := by
    have hle := n.le_toInt
    have hlt := n.toInt_lt
    rcases Int.le_total 0 n.toInt with hn | hn
    · exact ⟨2 ^ 53 + 1, by decide, by omega, by omega⟩
    · exact ⟨-(2 ^ 53 + 1), by decide, by omega, by omega⟩
  refine ⟨Int64.ofInt (t - n.toInt), ?_⟩
  have hsum : n.toInt + (Int64.ofInt (t - n.toInt)).toInt = t := by
    rw [Int64.toInt_ofInt_of_le hmin hmax]
    omega
  have hfits : ¬(t < int64Min ∨ int64Max < t) := by
    rw [int64Min, int64Max]
    omega
  have hchecked : int64Checked (· + ·) n (Int64.ofInt (t - n.toInt)) = some (Int64.ofInt t) := by
    rw [int64Checked]
    simp only [hsum]
    rw [if_neg (by rw [Bool.or_eq_true, decide_eq_true_iff, decide_eq_true_iff]; exact hfits)]
  have hexact : add (.int n) (.int (.ofInt (t - n.toInt))) = .ok (.int (.ofInt t)) := by
    rw [add, arith_of_checks rfl rfl]
    simp only [isFloat, toInt, hchecked]
    rfl
  have hrounded : ∃ e, add (.float d) (.int (.ofInt (t - n.toInt))) = .ok (.float e) := by
    rw [add, arith_of_checks rfl rfl]
    exact ⟨_, rfl⟩
  obtain ⟨e, he⟩ := hrounded
  rw [hexact, he]
  rintro ⟨-, -, hsame⟩
  have ht : (Int64.ofInt t).toInt = t := by
    rw [int64Min, int64Max] at hfits
    exact Int64.toInt_ofInt_of_le (by omega) (by omega)
  rw [quantity, quantity, ht] at hsame
  split at hsame
  · cases hsame
  · exact Binary64.mul_one_ne_scaled habs e.bits (Option.some.inj hsame)

theorem not_countsAsNumber (hs : @Accepted (.ieee lib) s) (h : ¬IsInteger s) :
    ¬@CountsAsNumber (.ieee lib) s := by
  let _ := DoubleOps.ieee lib
  intro hcounts
  obtain ⟨x, hx⟩ := exists_unequal lib (string s).toInt (string s).toFloat
  refine hx ?_
  have hsame := hcounts.left hs .add (.int x) rfl
  rw [denoted_float h] at hsame
  rw [← add_toInt hs rfl]
  exact hsame

/-- A FLOAT on the other side makes a text be converted by `stod`. -/
theorem sameNumber_of_float (hs : @Accepted (.ieee lib) s) (op : NumOp) (hop : op ≠ .mod)
    (d : Double) :
    SameNumber (@NumOp.apply (.ieee lib) op (.string s) (.float d))
        (@NumOp.apply (.ieee lib) op (@denoted (.ieee lib) s) (.float d)) ∧
      SameNumber (@NumOp.apply (.ieee lib) op (.float d) (.string s))
        (@NumOp.apply (.ieee lib) op (.float d) (@denoted (.ieee lib) s)) := by
  let _ := DoubleOps.ieee lib
  by_cases h : IsInteger s
  · obtain ⟨i, hi⟩ := exists_stoll h
    rw [denoted_integer hi]
    exact ⟨apply_left (converts_integer hi) op _, apply_right (converts_integer hi) op _⟩
  · rw [denoted_float h]
    obtain ⟨hleft, hright⟩ := apply_float op hs hop d
    rw [hleft, hright]
    exact ⟨sameNumber_apply_float, sameNumber_apply_float⟩

theorem rejected (hs : ¬@Accepted (.ieee lib) s) {op : NumOp} {x : Value} (hx : x.isNumber) :
    (∃ e, @NumOp.apply (.ieee lib) op (.string s) x = .error e) ∧
      ∃ e, @NumOp.apply (.ieee lib) op x (.string s) = .error e := by
  let _ := DoubleOps.ieee lib
  cases h : (string s).arithCheck with
  | ok _ => exact absurd h hs
  | error e =>
    exact ⟨⟨e, apply_left_error _ h⟩, ⟨e, apply_right_error _ (arithCheck_of_isNumber hx) h⟩⟩

theorem countsAsNumber (h : @Accepted (.ieee lib) s → IsInteger s) :
    @CountsAsNumber (.ieee lib) s := by
  let _ := DoubleOps.ieee lib
  have hconverts : Accepted s → Converts lib (.string s) (denoted s) := by
    intro hs
    obtain ⟨i, hi⟩ := exists_stoll (h hs)
    rw [denoted_integer hi]
    exact converts_integer hi
  exact {
    left := fun hs op x _ => apply_left (hconverts hs) op x
    right := fun hs op x _ => apply_right (hconverts hs) op x
    rejected := fun hs op x hx => rejected hs hx }

end Ieee

/-- A string counts as the number it denotes exactly when it is rejected or `stoll` reads it to
its end; with a FLOAT on the other side, and another operator than `%`, it always does. -/
theorem numeric_strings (lib : DoubleOps) (s : String) :
    letI := DoubleOps.ieee lib
    (CountsAsNumber s ↔ (Accepted s → IsInteger s)) ∧
    (Accepted s → ∀ op, op ≠ .mod → ∀ d,
      SameNumber (NumOp.apply op (.string s) (.float d)) (NumOp.apply op (denoted s) (.float d)) ∧
      SameNumber (NumOp.apply op (.float d) (.string s))
        (NumOp.apply op (.float d) (denoted s))) := by
  refine ⟨⟨fun hcounts hs => ?_, countsAsNumber⟩, sameNumber_of_float⟩
  by_contra hint
  exact not_countsAsNumber hs hint hcounts

/-- "5.5" + 1 is 6, which is not 5.5 + 1. -/
theorem numeric_string_truncated :
    letI := DoubleOps.ieee .host
    Accepted "5.5" ∧ (string "5.5").add (.int 1) = .ok (.int 6) ∧ ¬CountsAsNumber "5.5" := by
  have haccepted : @arithCheck (.ieee .host) (string "5.5") = .ok () := by decide +kernel
  refine ⟨haccepted, by decide +kernel, ?_⟩
  exact not_countsAsNumber haccepted (by decide +kernel)

end Value

end Look
