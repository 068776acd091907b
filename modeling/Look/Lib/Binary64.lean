/-
The binary64 numbers of IEEE 754.

A number is its 64 bits.  Every finite number is a whole number of units of 2^-1074, so that its
value is the integer `scaled`, and so are the infinities, which lie beyond the finite numbers
there too.  Comparison is comparison of these integers.  A value is rounded from a numerator and
a denominator to the nearest number, to the one with the even last digit when two are equally
near.  The bits behind the sign are in the order of the numbers, and the carry out of a
significand that is rounded up goes into the exponent.
-/
import Mathlib.Algebra.Group.Int.Defs
import Mathlib.Algebra.Group.Nat.Defs
import Mathlib.Order.MinMax

namespace Look

namespace Binary64

/-! ## The format -/

def negative (b : BitVec 64) : Bool := b.msb

/-- The exponent and the fraction. -/
def magnitude (b : BitVec 64) : Nat := b.toNat % 2 ^ 63

/-- The magnitude of the infinities; behind it are the NaNs. -/
def infinity : Nat := 2047 * 2 ^ 52

def isNaN (b : BitVec 64) : Bool := infinity < magnitude b

def isInfinite (b : BitVec 64) : Bool := magnitude b = infinity

/-- The value of a magnitude in units of 2^-1074. -/
def units (m : Nat) : Nat :=
  if m < 2 ^ 52 then m else (2 ^ 52 + m % 2 ^ 52) * 2 ^ (m / 2 ^ 52 - 1)

def scaled (b : BitVec 64) : Int := if negative b then -(units (magnitude b)) else units (magnitude b)

/-- The number with a sign and a magnitude. -/
def pack (neg : Bool) (m : Nat) : BitVec 64 := BitVec.ofNat 64 ((if neg then 2 ^ 63 else 0) + m)

/-! ## Comparison -/

def eq (x y : BitVec 64) : Bool := !isNaN x && !isNaN y && decide (scaled x = scaled y)

def lt (x y : BitVec 64) : Bool := !isNaN x && !isNaN y && decide (scaled x < scaled y)

def le (x y : BitVec 64) : Bool := !isNaN x && !isNaN y && decide (scaled x ≤ scaled y)

/-! ## Rounding -/

/-- The nearest whole number to a quotient, the even one of two. -/
def nearest (p q : Nat) : Nat :=
  if 2 * (p % q) < q then p / q
  else if q < 2 * (p % q) then p / q + 1
  else p / q + p / q % 2

/-- The magnitude nearest to `p / q` units. -/
def roundMagnitude (p q : Nat) : Nat :=
  let r := Nat.log2 (p / q) - 52
  min (r * 2 ^ 52 + nearest p (q * 2 ^ r)) infinity

def round (neg : Bool) (p q : Nat) : BitVec 64 := pack neg (roundMagnitude p q)

/-- The units of 1. -/
def one : Nat := 2 ^ 1074

/-- The conversion of an integer. -/
def ofInt (i : Int) : BitVec 64 := round (i < 0) (i.natAbs * one) 1

/-! ## Arithmetic -/

def nanMagnitude : Nat := infinity + 2 ^ 51

def nan : BitVec 64 := pack false nanMagnitude

def neg (x : BitVec 64) : BitVec 64 := x ^^^ pack true 0

/-- The sum of two finite numbers; a zero is negative when both are. -/
def addFinite (x y : BitVec 64) : BitVec 64 :=
  let v := scaled x + scaled y
  if v = 0 then pack (negative x && negative y) 0 else round (v < 0) v.natAbs 1

def add (x y : BitVec 64) : BitVec 64 :=
  if isNaN x || isNaN y then nan
  else if isInfinite x then if isInfinite y && negative x != negative y then nan else x
  else if isInfinite y then y
  else addFinite x y

def sub (x y : BitVec 64) : BitVec 64 := add x (neg y)

def mul (x y : BitVec 64) : BitVec 64 :=
  let s := negative x != negative y
  let m := units (magnitude x) * units (magnitude y)
  if isNaN x || isNaN y then nan
  else if isInfinite x || isInfinite y then if m = 0 then nan else pack s infinity
  else round s m one

def div (x y : BitVec 64) : BitVec 64 :=
  let s := negative x != negative y
  if isNaN x || isNaN y then nan
  else if isInfinite x then if isInfinite y then nan else pack s infinity
  else if isInfinite y then pack s 0
  else if magnitude y = 0 then if magnitude x = 0 then nan else pack s infinity
  else round s (units (magnitude x) * one) (units (magnitude y))

/-- Truncation to an integer. -/
def toInt (x : BitVec 64) : Int := Int.tdiv (scaled x) one

variable {x y z : BitVec 64} {s : Bool} {m n p p' q : Nat} {i j : Int}

theorem eq_iff (hx : isNaN x = false) (hy : isNaN y = false) :
    eq x y = true ↔ scaled x = scaled y := by simp [eq, hx, hy]

theorem lt_iff (hx : isNaN x = false) (hy : isNaN y = false) :
    lt x y = true ↔ scaled x < scaled y := by simp [lt, hx, hy]

theorem le_iff (hx : isNaN x = false) (hy : isNaN y = false) :
    le x y = true ↔ scaled x ≤ scaled y := by simp [le, hx, hy]

/-! ## Signs and magnitudes -/

theorem negative_eq (b : BitVec 64) : negative b = decide (2 ^ 63 ≤ b.toNat) := b.msb_eq_decide

theorem toNat_pack (h : m < 2 ^ 63) : (pack s m).toNat = (if s then 2 ^ 63 else 0) + m := by
  rw [pack, BitVec.toNat_ofNat]
  cases s <;> simp <;> omega

theorem negative_pack (h : m < 2 ^ 63) : negative (pack s m) = s := by
  rw [negative_eq, toNat_pack h]
  cases s
  · simp
    omega
  · simp

theorem magnitude_pack (h : m < 2 ^ 63) : magnitude (pack s m) = m := by
  rw [magnitude, toNat_pack h]
  cases s <;> simp <;> omega

theorem scaled_pack (h : m < 2 ^ 63) :
    scaled (pack s m) = if s then -(units m : Int) else units m := by
  rw [scaled, negative_pack h, magnitude_pack h]

/-! ## The order of the magnitudes -/

theorem units_mono (h : m ≤ n) : units m ≤ units n := by
  have hm := Nat.div_add_mod m (2 ^ 52)
  have hn := Nat.div_add_mod n (2 ^ 52)
  have hmlt : m % 2 ^ 52 < 2 ^ 52 := Nat.mod_lt m (by decide)
  have hdiv : m / 2 ^ 52 ≤ n / 2 ^ 52 := Nat.div_le_div_right h
  rw [units, units]
  by_cases hsmall : n < 2 ^ 52
  · rw [if_pos (by omega), if_pos hsmall]
    exact h
  · rw [if_neg hsmall]
    have hpos : 0 < 2 ^ (n / 2 ^ 52 - 1) := Nat.two_pow_pos _
    by_cases hsub : m < 2 ^ 52
    · rw [if_pos hsub]
      calc m ≤ 2 ^ 52 + n % 2 ^ 52 := by omega
        _ ≤ (2 ^ 52 + n % 2 ^ 52) * 2 ^ (n / 2 ^ 52 - 1) := Nat.le_mul_of_pos_right _ hpos
    · rw [if_neg hsub]
      rcases Nat.lt_or_ge (m / 2 ^ 52) (n / 2 ^ 52) with hlt | hge
      · calc (2 ^ 52 + m % 2 ^ 52) * 2 ^ (m / 2 ^ 52 - 1)
            ≤ 2 ^ 53 * 2 ^ (m / 2 ^ 52 - 1) := Nat.mul_le_mul_right _ (by omega)
          _ = 2 ^ 52 * 2 ^ (m / 2 ^ 52 - 1 + 1) := by
            rw [← Nat.pow_add, ← Nat.pow_add]
            congr 1
            omega
          _ ≤ 2 ^ 52 * 2 ^ (n / 2 ^ 52 - 1) :=
            Nat.mul_le_mul_left _ (Nat.pow_le_pow_right (by decide) (by omega))
          _ ≤ (2 ^ 52 + n % 2 ^ 52) * 2 ^ (n / 2 ^ 52 - 1) :=
            Nat.mul_le_mul_right _ (Nat.le_add_right _ _)
      · have hsame : m / 2 ^ 52 = n / 2 ^ 52 := Nat.le_antisymm hdiv hge
        rw [hsame]
        exact Nat.mul_le_mul_right _ (by omega)

theorem units_pos (h : 0 < m) : 0 < units m := by
  calc 0 < units 1 := by decide
    _ ≤ units m := units_mono h

theorem units_eq_zero : units m = 0 ↔ m = 0 := by
  constructor
  · intro h
    by_contra hm
    exact absurd h (Nat.ne_of_gt (units_pos (Nat.pos_of_ne_zero hm)))
  · rintro rfl
    rfl

/-! ## The order of the rounded values -/

theorem div_le_nearest : p / q ≤ nearest p q := by
  rw [nearest]
  split
  · exact Nat.le_refl _
  · split
    · exact Nat.le_succ _
    · exact Nat.le_add_right _ _

theorem nearest_le : nearest p q ≤ p / q + 1 := by
  rw [nearest]
  split
  · exact Nat.le_succ _
  · split
    · exact Nat.le_refl _
    · have := Nat.mod_lt (p / q) (show 0 < 2 by decide)
      omega

theorem nearest_mono (h : p ≤ p') : nearest p q ≤ nearest p' q := by
  rcases Nat.lt_or_ge (p / q) (p' / q) with hlt | hge
  · calc nearest p q ≤ p / q + 1 := nearest_le
      _ ≤ p' / q := hlt
      _ ≤ nearest p' q := div_le_nearest
  · have hsame : p / q = p' / q := Nat.le_antisymm (Nat.div_le_div_right h) hge
    have hp := Nat.div_add_mod p q
    have hp' := Nat.div_add_mod p' q
    rw [hsame] at hp
    have hmod : p % q ≤ p' % q := by omega
    rw [nearest, nearest, hsame]
    split <;> split <;> (try split) <;> (try split) <;> omega

theorem roundMagnitude_mono (h : p ≤ p') : roundMagnitude p q ≤ roundMagnitude p' q := by
  have hdiv : p / q ≤ p' / q := Nat.div_le_div_right h
  rw [roundMagnitude, roundMagnitude]
  refine min_le_min ?_ (Nat.le_refl _)
  generalize hr : Nat.log2 (p / q) - 52 = r
  generalize hr' : Nat.log2 (p' / q) - 52 = r'
  rcases Nat.lt_trichotomy r r' with hlt | rfl | hgt
  · -- The larger value lies in a higher binade.
    have hne : p' / q ≠ 0 := by
      intro hzero
      rw [hzero, Nat.log2_zero] at hr'
      omega
    have hlog : p' / q ≥ 2 ^ (52 + r') := by
      calc 2 ^ (52 + r') = 2 ^ Nat.log2 (p' / q) := by
            congr 1
            omega
        _ ≤ p' / q := Nat.log2_self_le hne
    have hlow : 2 ^ 52 ≤ nearest p' (q * 2 ^ r') := by
      calc 2 ^ 52 ≤ p' / q / 2 ^ r' := by
            rw [Nat.le_div_iff_mul_le (Nat.two_pow_pos _), ← Nat.pow_add]
            exact hlog
        _ = p' / (q * 2 ^ r') := Nat.div_div_eq_div_mul _ _ _
        _ ≤ nearest p' (q * 2 ^ r') := div_le_nearest
    have hhigh : nearest p (q * 2 ^ r) ≤ 2 ^ 53 := by
      have hquot : p / (q * 2 ^ r) < 2 ^ 53 := by
        rw [← Nat.div_div_eq_div_mul, Nat.div_lt_iff_lt_mul (Nat.two_pow_pos _), ← Nat.pow_add]
        calc p / q < 2 ^ (Nat.log2 (p / q) + 1) := Nat.lt_log2_self
          _ ≤ 2 ^ (53 + r) := Nat.pow_le_pow_right (by decide) (by omega)
      exact Nat.le_trans nearest_le hquot
    omega
  · exact Nat.add_le_add_left (nearest_mono h) _
  · have hle : Nat.log2 (p / q) ≤ Nat.log2 (p' / q) := by
      by_cases hzero : p / q = 0
      · rw [hzero]
        exact Nat.zero_le _
      · have hzero' : p' / q ≠ 0 := fun h0 => hzero (Nat.le_zero.mp (h0 ▸ hdiv))
        exact (Nat.le_log2 hzero').mpr (Nat.le_trans (Nat.log2_self_le hzero) hdiv)
    omega

theorem roundMagnitude_pos (hq : 0 < q) (h : q ≤ p) : 0 < roundMagnitude p q := by
  rw [roundMagnitude]
  refine Nat.lt_min.mpr ⟨?_, by decide⟩
  generalize hr : Nat.log2 (p / q) - 52 = r
  cases r with
  | zero =>
    calc 0 < p / q := Nat.div_pos h hq
      _ = p / (q * 2 ^ 0) := by rw [Nat.pow_zero, Nat.mul_one]
      _ ≤ nearest p (q * 2 ^ 0) := div_le_nearest
      _ ≤ 0 * 2 ^ 52 + nearest p (q * 2 ^ 0) := Nat.le_add_left _ _
  | succ r => omega

theorem roundMagnitude_lt : roundMagnitude p q < 2 ^ 63 :=
  Nat.lt_of_le_of_lt (Nat.min_le_right _ _) (by decide)

theorem scaled_round : scaled (round s p q) =
    if s then -(units (roundMagnitude p q) : Int) else units (roundMagnitude p q) :=
  scaled_pack roundMagnitude_lt

/-! ## Integers -/

theorem one_pos : 0 < one := by
  rw [one]
  exact Nat.two_pow_pos 1074

theorem scaled_ofInt (i : Int) : scaled (ofInt i) =
    if i < 0 then -(units (roundMagnitude (i.natAbs * one) 1) : Int)
    else units (roundMagnitude (i.natAbs * one) 1) := by
  rw [ofInt, scaled_round]
  simp only [decide_eq_true_eq]

theorem isNaN_ofInt (i : Int) : isNaN (ofInt i) = false := by
  rw [isNaN, ofInt, round, magnitude_pack roundMagnitude_lt]
  exact decide_eq_false (Nat.not_lt.mpr (Nat.min_le_right _ _))

theorem scaled_ofInt_mono (h : i ≤ j) : scaled (ofInt i) ≤ scaled (ofInt j) := by
  have hmono : ∀ {a b : Nat}, a ≤ b →
      units (roundMagnitude (a * one) 1) ≤ units (roundMagnitude (b * one) 1) :=
    fun hab => units_mono (roundMagnitude_mono (Nat.mul_le_mul_right _ hab))
  rw [scaled_ofInt, scaled_ofInt]
  split
  · split
    · have := hmono (show j.natAbs ≤ i.natAbs by omega)
      omega
    · omega
  · rw [if_neg (by omega)]
    exact Int.ofNat_le.mpr (hmono (by omega))

theorem scaled_ofInt_eq_zero : scaled (ofInt i) = 0 ↔ i = 0 := by
  constructor
  · intro h
    by_contra hi
    have hpos : 0 < units (roundMagnitude (i.natAbs * one) 1) :=
      units_pos (roundMagnitude_pos Nat.one_pos (Nat.mul_pos (by omega) one_pos))
    rw [scaled_ofInt] at h
    split at h <;> omega
  · rintro rfl
    rw [scaled_ofInt, Int.natAbs_zero, Nat.zero_mul]
    rfl

/-! ## The sign of a zero -/

/-- Numbers that differ at most in the sign of a zero. -/
def Alike (x y : BitVec 64) : Prop := x = y ∨ magnitude x = 0 ∧ magnitude y = 0

theorem Alike.symm (h : Alike x y) : Alike y x := h.elim (fun h => .inl h.symm) fun h => .inr h.symm

theorem scaled_of_zero (h : magnitude x = 0) : scaled x = 0 := by
  rw [scaled, h]
  split <;> rfl

theorem isNaN_of_zero (h : magnitude x = 0) : isNaN x = false := by
  rw [isNaN, h]
  decide

theorem isInfinite_of_zero (h : magnitude x = 0) : isInfinite x = false := by
  rw [isInfinite, h]
  decide

theorem Alike.scaled (h : Alike x y) : scaled x = scaled y := by
  obtain rfl | ⟨hx, hy⟩ := h
  · rfl
  · rw [scaled_of_zero hx, scaled_of_zero hy]

theorem Alike.isNaN (h : Alike x y) : isNaN x = isNaN y := by
  obtain rfl | ⟨hx, hy⟩ := h
  · rfl
  · rw [isNaN_of_zero hx, isNaN_of_zero hy]

theorem Alike.eq (h : Alike x y) (z : BitVec 64) : eq x z = eq y z := by
  rw [Binary64.eq, Binary64.eq, h.isNaN, h.scaled]

theorem magnitude_pack_zero : magnitude (pack s 0) = 0 := magnitude_pack (by decide)

theorem alike_pack_zero {t : Bool} : Alike (pack s 0) (pack t 0) :=
  .inr ⟨magnitude_pack_zero, magnitude_pack_zero⟩

theorem magnitude_neg (x : BitVec 64) : magnitude (neg x) = magnitude x := by
  have hbit : (pack true 0).toNat = 2 ^ 63 := rfl
  rw [magnitude, magnitude, neg, BitVec.toNat_xor, hbit, Nat.xor_mod_two_pow, Nat.mod_self,
    Nat.xor_zero]

theorem Alike.neg (h : Alike x y) : Alike (neg x) (neg y) := by
  obtain rfl | ⟨hx, hy⟩ := h
  · exact .inl rfl
  · exact .inr ⟨(magnitude_neg x).trans hx, (magnitude_neg y).trans hy⟩

theorem alike_addFinite {t u : Bool} {i : Int} :
    Alike (if i = 0 then pack t 0 else round s i.natAbs 1)
      (if i = 0 then pack u 0 else round s i.natAbs 1) := by
  split
  · exact alike_pack_zero
  · exact .inl rfl

theorem alike_add_left (h : Alike x y) (z : BitVec 64) : Alike (add x z) (add y z) := by
  obtain rfl | ⟨hx, hy⟩ := h
  · exact .inl rfl
  · simp only [add, isNaN_of_zero hx, isNaN_of_zero hy, isInfinite_of_zero hx,
      isInfinite_of_zero hy, addFinite, scaled_of_zero hx, scaled_of_zero hy, Bool.false_or,
      Bool.false_eq_true, if_false]
    split
    · exact .inl rfl
    · split
      · exact .inl rfl
      · exact alike_addFinite

theorem alike_add_right (h : Alike x y) (z : BitVec 64) : Alike (add z x) (add z y) := by
  obtain rfl | ⟨hx, hy⟩ := h
  · exact .inl rfl
  · simp only [add, isNaN_of_zero hx, isNaN_of_zero hy, isInfinite_of_zero hx,
      isInfinite_of_zero hy, addFinite, scaled_of_zero hx, scaled_of_zero hy, Bool.or_false,
      Bool.false_and, Bool.false_eq_true, if_false]
    split
    · exact .inl rfl
    · split
      · exact .inl rfl
      · exact alike_addFinite

theorem alike_sub_left (h : Alike x y) (z : BitVec 64) : Alike (sub x z) (sub y z) :=
  alike_add_left h (neg z)

theorem alike_sub_right (h : Alike x y) (z : BitVec 64) : Alike (sub z x) (sub z y) :=
  alike_add_right h.neg z

theorem roundMagnitude_zero : roundMagnitude 0 q = 0 := by
  have hlog : Nat.log2 (0 / q) - 52 = 0 := by
    rw [Nat.zero_div]
    rfl
  have hnearest : nearest 0 (q * 2 ^ 0) = 0 := by
    rw [nearest]
    simp
  rw [roundMagnitude]
  simp only [hlog, hnearest, Nat.zero_mul, Nat.add_zero]
  exact min_eq_left (Nat.zero_le _)

theorem round_zero : round s 0 q = pack s 0 := by
  rw [round, roundMagnitude_zero]

theorem alike_mul_left (h : Alike x y) (z : BitVec 64) : Alike (mul x z) (mul y z) := by
  obtain rfl | ⟨hx, hy⟩ := h
  · exact .inl rfl
  · have hunits : units 0 = 0 := rfl
    simp only [mul, isNaN_of_zero hx, isNaN_of_zero hy, isInfinite_of_zero hx,
      isInfinite_of_zero hy, hx, hy, hunits, Nat.zero_mul, Bool.false_or, round_zero, if_true]
    split
    · exact .inl rfl
    · split
      · exact .inl rfl
      · exact alike_pack_zero

theorem mul_comm (x y : BitVec 64) : mul x y = mul y x := by
  have hsign : (negative x != negative y) = (negative y != negative x) := bne_comm
  simp only [mul, Bool.or_comm (isNaN x), Bool.or_comm (isInfinite x), hsign,
    Nat.mul_comm (units (magnitude x))]

theorem alike_mul_right (h : Alike x y) (z : BitVec 64) : Alike (mul z x) (mul z y) := by
  rw [mul_comm z x, mul_comm z y]
  exact alike_mul_left h z

theorem alike_div_left (h : Alike x y) (hz : magnitude z ≠ 0) : Alike (div x z) (div y z) := by
  obtain rfl | ⟨hx, hy⟩ := h
  · exact .inl rfl
  · have hunits : units 0 = 0 := rfl
    simp only [div, isNaN_of_zero hx, isNaN_of_zero hy, isInfinite_of_zero hx,
      isInfinite_of_zero hy, hx, hy, hunits, Nat.zero_mul, Bool.false_or, round_zero, hz,
      Bool.false_eq_true, if_false]
    split
    · exact .inl rfl
    · split <;> exact alike_pack_zero

/-! ## An integer that is rounded -/

/-- 53 digits are not enough for 2^53 + 1. -/
theorem mul_two_pow_ne {a k u : Nat} (ha : a < 2 ^ 53) : a * 2 ^ k ≠ (2 ^ 53 + 1) * 2 ^ u := by
  intro h
  rcases Nat.le_total k u with hle | hle
  · obtain ⟨j, rfl⟩ := Nat.exists_eq_add_of_le hle
    rw [Nat.pow_add, Nat.mul_comm (2 ^ k), ← Nat.mul_assoc] at h
    have hcancel := Nat.eq_of_mul_eq_mul_right (Nat.two_pow_pos k) h
    have hmany : 2 ^ 53 + 1 ≤ (2 ^ 53 + 1) * 2 ^ j := Nat.le_mul_of_pos_right _ (Nat.two_pow_pos j)
    omega
  · obtain ⟨j, rfl⟩ := Nat.exists_eq_add_of_le hle
    rw [Nat.pow_add, Nat.mul_comm (2 ^ u), ← Nat.mul_assoc] at h
    have hcancel := Nat.eq_of_mul_eq_mul_right (Nat.two_pow_pos u) h
    cases j with
    | zero => omega
    | succ j =>
      rw [Nat.pow_succ, ← Nat.mul_assoc] at hcancel
      omega

theorem units_ne : units m ≠ (2 ^ 53 + 1) * one := by
  have hlarge : 2 ^ 53 + 1 ≤ (2 ^ 53 + 1) * one := Nat.le_mul_of_pos_right _ one_pos
  rw [units]
  split
  · omega
  · have hdigits : 2 ^ 52 + m % 2 ^ 52 < 2 ^ 53 := by omega
    obtain ⟨u, hu⟩ : ∃ u, one = 2 ^ u := ⟨1074, rfl⟩
    rw [hu]
    exact mul_two_pow_ne hdigits

theorem scaled_ne (x : BitVec 64) : (scaled x).natAbs ≠ (2 ^ 53 + 1) * one := by
  have habs : (scaled x).natAbs = units (magnitude x) := by
    rw [scaled]
    split <;> simp
  rw [habs]
  exact units_ne

theorem mul_one_ne_scaled (h : i.natAbs = 2 ^ 53 + 1) (x : BitVec 64) : i * one ≠ scaled x := by
  have hcast : (i * (one : Int)).natAbs = (2 ^ 53 + 1) * one := by
    rw [Int.natAbs_mul, h]
    exact congrArg _ (Int.natAbs_natCast one)
  intro hscaled
  rw [hscaled] at hcast
  exact scaled_ne x hcast

/-! ## An integer that comes back -/

/-- A natural number that 53 binary digits are enough for. -/
def Exact (i : Nat) : Prop := ∃ a k, a < 2 ^ 53 ∧ i = a * 2 ^ k

/-- The value of a significand in a binade; 2^53 is the first one of the next binade. -/
theorem units_binade {r : Nat} (hlow : 2 ^ 52 ≤ n) (hhigh : n ≤ 2 ^ 53) :
    units (r * 2 ^ 52 + n) = n * 2 ^ r := by
  rw [units, if_neg (by omega)]
  rcases Nat.lt_or_ge n (2 ^ 53) with hlt | hge
  · have hdiv : (r * 2 ^ 52 + n) / 2 ^ 52 - 1 = r := by omega
    have hmod : 2 ^ 52 + (r * 2 ^ 52 + n) % 2 ^ 52 = n := by omega
    rw [hdiv, hmod]
  · obtain rfl : n = 2 ^ 53 := Nat.le_antisymm hhigh hge
    have hdiv : (r * 2 ^ 52 + 2 ^ 53) / 2 ^ 52 - 1 = r + 1 := by omega
    have hmod : 2 ^ 52 + (r * 2 ^ 52 + 2 ^ 53) % 2 ^ 52 = 2 ^ 52 := by omega
    rw [hdiv, hmod, Nat.pow_succ 2 r]
    omega

theorem log2_mul_two_pow (hn : n ≠ 0) (k : Nat) : Nat.log2 (n * 2 ^ k) = Nat.log2 n + k := by
  rw [Nat.log2_eq_iff (Nat.mul_ne_zero hn (Nat.two_pow_pos k).ne')]
  constructor
  · rw [Nat.pow_add]
    exact Nat.mul_le_mul_right _ (Nat.log2_self_le hn)
  · rw [Nat.add_right_comm, Nat.pow_add]
    exact Nat.mul_lt_mul_of_pos_right Nat.lt_log2_self (Nat.two_pow_pos k)

theorem exists_one_eq : ∃ u, one = 2 ^ u ∧ u = 1074 := ⟨1074, by rw [one], rfl⟩

/-- The number that a natural number is rounded to has 53 digits behind at most as many zeros. -/
theorem units_roundMagnitude (hlog : 52 ≤ Nat.log2 p) (hmax : Nat.log2 p < 1137) :
    let r := Nat.log2 p - 52
    units (roundMagnitude p 1) = nearest p (2 ^ r) * 2 ^ r ∧ nearest p (2 ^ r) ≤ 2 ^ 53 := by
  intro r
  have hne : p ≠ 0 := by
    rintro rfl
    rw [Nat.log2_zero] at hlog
    exact absurd hlog (by decide)
  have hself : 2 ^ (52 + r) ≤ p := by
    have h52 : 52 + r = Nat.log2 p := by omega
    rw [h52]
    exact Nat.log2_self_le hne
  have hr : r < 1085 := by
    omega
  have hlow : 2 ^ 52 ≤ nearest p (2 ^ r) := by
    calc 2 ^ 52 ≤ p / 2 ^ r := by
          rw [Nat.le_div_iff_mul_le (Nat.two_pow_pos _), ← Nat.pow_add]
          exact hself
      _ ≤ nearest p (2 ^ r) := div_le_nearest
  have hhigh : nearest p (2 ^ r) ≤ 2 ^ 53 := by
    have hquot : p / 2 ^ r < 2 ^ 53 := by
      rw [Nat.div_lt_iff_lt_mul (Nat.two_pow_pos _), ← Nat.pow_add]
      have h53 : 53 + r = Nat.log2 p + 1 := by omega
      rw [h53]
      exact Nat.lt_log2_self
    exact Nat.le_trans nearest_le hquot
  refine ⟨?_, hhigh⟩
  have hround : roundMagnitude p 1 = r * 2 ^ 52 + nearest p (2 ^ r) := by
    rw [roundMagnitude, Nat.div_one, Nat.one_mul]
    refine Nat.min_eq_left ?_
    rw [infinity]
    change r * 2 ^ 52 + nearest p (2 ^ r) ≤ 2047 * 2 ^ 52
    omega
  rw [hround, units_binade hlow hhigh]

theorem nearest_of_dvd (hq : 0 < q) (h : q ∣ p) : nearest p q = p / q := by
  rw [nearest, Nat.mod_eq_zero_of_dvd h, if_pos (by omega)]

/-- An exact number is not rounded. -/
theorem units_of_exact {i : Nat} (hi : i ≠ 0) (hmax : i < 2 ^ 63) (h : Exact i) :
    units (roundMagnitude (i * one) 1) = i * one := by
  have hlog : Nat.log2 i < 63 := (Nat.log2_lt hi).mpr hmax
  obtain ⟨u, hone, hu⟩ := exists_one_eq
  rw [hone]
  have hscale := log2_mul_two_pow hi u
  obtain ⟨hunits, -⟩ := units_roundMagnitude (p := i * 2 ^ u) (by omega) (by omega)
  have hdvd : 2 ^ (Nat.log2 (i * 2 ^ u) - 52) ∣ i * 2 ^ u := by
    obtain ⟨a, k, ha, rfl⟩ := h
    have hane : a ≠ 0 := fun h0 => hi (by rw [h0, Nat.zero_mul])
    have hdigits : Nat.log2 a < 53 := (Nat.log2_lt hane).mpr ha
    rw [hscale, log2_mul_two_pow hane, Nat.mul_assoc, ← Nat.pow_add]
    exact Nat.dvd_mul_left_of_dvd (Nat.pow_dvd_pow 2 (by omega)) a
  rw [hunits, nearest_of_dvd (Nat.two_pow_pos _) hdvd, Nat.div_mul_cancel hdvd]

/-- A natural number comes back from the conversion where it is exact. -/
theorem toInt_ofInt_iff {i : Nat} (hmax : i < 2 ^ 63) : toInt (ofInt i) = i ↔ Exact i := by
  have hscaled : scaled (ofInt i) = units (roundMagnitude (i * one) 1) := by
    rw [scaled_ofInt, if_neg (Int.not_lt.mpr (Int.natCast_nonneg i)), Int.natAbs_natCast]
  rw [toInt, hscaled, ← Int.ofNat_tdiv, Int.natCast_inj]
  by_cases hi : i = 0
  · subst hi
    have hzero : units 0 = 0 := rfl
    rw [Nat.zero_mul, roundMagnitude_zero, hzero, Nat.zero_div]
    exact iff_of_true rfl ⟨0, 0, by decide, rfl⟩
  constructor
  · intro h
    rcases Nat.lt_or_ge i (2 ^ 53) with hlt | hge
    · exact ⟨i, 0, hlt, (Nat.mul_one i).symm⟩
    have hlow : 53 ≤ Nat.log2 i := (Nat.le_log2 hi).mpr hge
    have hhigh : Nat.log2 i < 63 := (Nat.log2_lt hi).mpr hmax
    obtain ⟨u, hone, hu⟩ := exists_one_eq
    have hscale := log2_mul_two_pow hi u
    obtain ⟨hunits, hdigits⟩ := units_roundMagnitude (p := i * 2 ^ u) (by omega) (by omega)
    obtain ⟨k, hk⟩ : ∃ k, Nat.log2 (i * 2 ^ u) - 52 = k + u := ⟨Nat.log2 i - 52, by omega⟩
    generalize nearest (i * 2 ^ u) (2 ^ (Nat.log2 (i * 2 ^ u) - 52)) = n at hunits hdigits
    rw [hone, hunits, hk, Nat.pow_add, ← Nat.mul_assoc,
      Nat.mul_div_cancel _ (Nat.two_pow_pos u)] at h
    rcases Nat.lt_or_eq_of_le hdigits with hlt | rfl
    · exact ⟨n, k, hlt, h.symm⟩
    · refine ⟨2 ^ 52, k + 1, by decide, h.symm.trans ?_⟩
      have hsucc : 2 ^ (k + 1) = 2 ^ k * 2 := Nat.pow_succ 2 k
      omega
  · intro h
    rw [units_of_exact hi hmax h, Nat.mul_div_cancel _ one_pos]

end Binary64

end Look
