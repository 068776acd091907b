/-
A list of flags as the bits of a list of bytes, the lowest bit of a byte first.
-/
import Mathlib.Data.List.Basic

namespace Look

def setBit (bm : List UInt8) (k : Nat) : List UInt8 :=
  bm.modify (k / 8) (· ||| (1 <<< UInt8.ofNat (k % 8)))

def bitAt (bm : List UInt8) (k : Nat) : Bool := (bm.getD (k / 8) 0).toNat.testBit (k % 8)

/-- Set the bits from `offset` on whose flag is set. -/
def setBits (offset : Nat) : List Bool → List UInt8 → List UInt8
  | [], bm => bm
  | flag :: flags, bm => setBits (offset + 1) flags (if flag then setBit bm offset else bm)

/-- The flags from the bit `offset` on, in as many bytes as they need. -/
def bitmap (offset : Nat) (flags : List Bool) : List UInt8 :=
  setBits offset flags (List.replicate ((flags.length + 7 + offset) / 8) 0)

variable {bm : List UInt8} {k j offset : Nat} {flags : List Bool}

@[simp] theorem length_setBit (bm : List UInt8) (k : Nat) : (setBit bm k).length = bm.length :=
  List.length_modify _ _ _

@[simp] theorem length_setBits (offset : Nat) (flags : List Bool) (bm : List UInt8) :
    (setBits offset flags bm).length = bm.length := by
  induction flags generalizing offset bm with
  | nil => rfl
  | cons flag flags ih =>
    rw [setBits, ih]
    split
    · exact length_setBit bm offset
    · rfl

@[simp] theorem length_bitmap (offset : Nat) (flags : List Bool) :
    (bitmap offset flags).length = (flags.length + 7 + offset) / 8 := by
  rw [bitmap, length_setBits, List.length_replicate]

theorem testBit_one_shiftLeft (i j : Fin 8) :
    ((1 : UInt8) <<< UInt8.ofNat i.val).toNat.testBit j.val = decide (j = i) := by
  revert i j
  decide

theorem bitAt_setBit (h : k / 8 < bm.length) : bitAt (setBit bm k) j = (bitAt bm j || j == k) := by
  have hj : j % 8 < 8 := Nat.mod_lt _ (by decide)
  have hk : k % 8 < 8 := Nat.mod_lt _ (by decide)
  rw [bitAt, bitAt, setBit, List.getD_eq_getElem?_getD, List.getElem?_modify]
  by_cases hbyte : k / 8 = j / 8
  · have hbit := testBit_one_shiftLeft ⟨k % 8, hk⟩ ⟨j % 8, hj⟩
    have hsame : (j == k) = decide (j % 8 = k % 8) := by
      rw [Bool.eq_iff_iff, beq_iff_eq, decide_eq_true_eq]
      omega
    rw [List.getD_eq_getElem?_getD, List.getElem?_eq_getElem (hbyte ▸ h)]
    simp only [hbyte, if_true, Option.map_some, Option.getD_some, Option.map_eq_map]
    rw [UInt8.toNat_or, Nat.testBit_or, hbit, hsame]
    simp only [Fin.mk.injEq]
  · have hne : (j == k) = false := by
      rw [beq_eq_false_iff_ne]
      rintro rfl
      exact hbyte rfl
    rw [hne, Bool.or_false, List.getD_eq_getElem?_getD]
    simp [hbyte]

theorem bitAt_setBits (h : offset + flags.length ≤ 8 * bm.length) :
    bitAt (setBits offset flags bm) j =
      (bitAt bm j || (decide (offset ≤ j) && (flags[j - offset]?).getD false)) := by
  induction flags generalizing offset bm with
  | nil => simp [setBits]
  | cons flag flags ih =>
    rw [List.length_cons] at h
    have hlen : (if flag then setBit bm offset else bm).length = bm.length := by
      split
      · exact length_setBit bm offset
      · rfl
    rw [setBits, ih (by rw [hlen]; omega)]
    have hset : bitAt (if flag then setBit bm offset else bm) j =
        (bitAt bm j || (flag && j == offset)) := by
      cases flag with
      | false => simp
      | true => simpa using bitAt_setBit (k := offset) (by omega)
    rw [hset, Bool.or_assoc]
    congr 1
    rcases Nat.lt_trichotomy j offset with hj | rfl | hj
    · simp [Nat.not_le.mpr hj, Nat.ne_of_lt hj, show ¬ offset + 1 ≤ j by omega]
    · simp [Nat.not_succ_le_self]
    · obtain ⟨i, hi⟩ : ∃ i, j - offset = i + 1 := ⟨j - offset - 1, by omega⟩
      have hi' : j - (offset + 1) = i := by omega
      simp [hi, hi', Nat.ne_of_gt hj, show offset ≤ j by omega, show offset + 1 ≤ j by omega]

/-- Every flag is where it was put. -/
theorem bitAt_bitmap {i : Nat} (h : i < flags.length) :
    bitAt (bitmap offset flags) (i + offset) = flags[i] := by
  have hzero : bitAt (List.replicate ((flags.length + 7 + offset) / 8) 0) (i + offset) = false := by
    rw [bitAt, List.getD_eq_getElem?_getD, List.getElem?_replicate]
    split <;> simp
  rw [bitmap, bitAt_setBits (by rw [List.length_replicate]; omega), hzero]
  simp [h]

end Look
