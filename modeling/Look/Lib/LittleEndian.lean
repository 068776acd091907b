/-
Numbers as bytes, least significant byte first.
-/
import Mathlib.Algebra.Group.Int.Defs
import Mathlib.Algebra.Group.Nat.Defs
import Mathlib.Data.List.Basic

namespace Look

/-- The number of the bytes `bs`. -/
def ofLe : List UInt8 → Nat
  | [] => 0
  | b :: bs => b.toNat ||| ofLe bs <<< 8

/-- The `w` low bytes of a number. -/
def toLe : Nat → Nat → List UInt8
  | 0, _ => []
  | w + 1, n => UInt8.ofNat n :: toLe w (n >>> 8)

theorem ofLe_cons (b : UInt8) (bs : List UInt8) : ofLe (b :: bs) = b.toNat + 256 * ofLe bs := by
  have hb : b.toNat < 2 ^ 8 := b.toNat_lt
  rw [ofLe, Nat.or_comm, ← Nat.shiftLeft_add_eq_or_of_lt hb, Nat.shiftLeft_eq]
  omega

@[simp] theorem length_toLe (w n : Nat) : (toLe w n).length = w := by
  induction w generalizing n with
  | zero => rfl
  | succ w ih => rw [toLe, List.length_cons, ih]

/-- What does not fit into `w` bytes is lost. -/
theorem ofLe_toLe (w n : Nat) : ofLe (toLe w n) = n % 256 ^ w := by
  induction w generalizing n with
  | zero => rw [toLe, ofLe, Nat.pow_zero, Nat.mod_one]
  | succ w ih =>
    have hdiv : n >>> 8 = n / 256 := Nat.shiftRight_eq_div_pow n 8
    rw [toLe, ofLe_cons, ih, hdiv, UInt8.toNat_ofNat', Nat.pow_succ' (n := w), Nat.mod_mul (a := 256)]

theorem ofLe_toLe_of_lt {w n : Nat} (h : n < 256 ^ w) : ofLe (toLe w n) = n := by
  rw [ofLe_toLe, Nat.mod_eq_of_lt h]

theorem ofLe_lt (bs : List UInt8) : ofLe bs < 256 ^ bs.length := by
  induction bs with
  | nil => decide
  | cons b bs ih =>
    have hb : b.toNat < 256 := b.toNat_lt
    rw [ofLe_cons, List.length_cons, Nat.pow_succ']
    omega

end Look
