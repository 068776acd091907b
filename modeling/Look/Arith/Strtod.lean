/-
`std::stod`, which is `strtod` with its errors thrown.

Blanks and a sign are followed by a decimal numeral, by a hexadecimal one behind `0x`, or by a
word for an infinity or a NaN.  What stands behind is left unread, and the number of characters
consumed is part of the result.  The numeral is rounded once, from its digits.
-/
import Mathlib.Algebra.Group.Int.Defs
import Mathlib.Algebra.Group.Nat.Defs
import Mathlib.Data.List.Basic
import Mathlib.Data.List.TakeWhile
import Look.Decimal
import Look.Lib.Binary64

namespace Look

namespace Strtod

/-- A minus sign or a plus sign: whether it is a minus, its length, and what follows. -/
def splitSign : List Char → Bool × Nat × List Char
  | '-' :: cs => (true, 1, cs)
  | '+' :: cs => (false, 1, cs)
  | cs => (false, 0, cs)

def isHexChar (c : Char) : Bool :=
  isDigitChar c || ('a' ≤ c && c ≤ 'f') || ('A' ≤ c && c ≤ 'F')

def digitValue (c : Char) : Nat :=
  if isDigitChar c then c.toNat - '0'.toNat
  else if 'a' ≤ c then c.toNat - 'a'.toNat + 10
  else c.toNat - 'A'.toNat + 10

/-- The value of digits in a base. -/
def valueOf (base : Nat) (ds : List Char) : Nat := ds.foldl (fun n c => base * n + digitValue c) 0

/-- Digits with a point among them: their value, how many stand behind the point, and the length,
which is 0 without a digit. -/
def mantissa (base : Nat) (isDigit : Char → Bool) (cs : List Char) : Nat × Nat × Nat :=
  let whole := cs.takeWhile isDigit
  match cs.drop whole.length with
  | '.' :: rest =>
    let frac := rest.takeWhile isDigit
    (valueOf base (whole ++ frac), frac.length,
      if whole.length + frac.length = 0 then 0 else whole.length + 1 + frac.length)
  | _ => (valueOf base whole, 0, whole.length)

/-- An exponent behind its letter, and its length; without a digit there is none. -/
def exponent (letter : Char) : List Char → Int × Nat
  | c :: cs =>
    let (negative, sign, digits) := splitSign cs
    let ds := digits.takeWhile isDigitChar
    if c.toLower = letter && ds ≠ [] then
      (if negative then -(valueOf 10 ds : Int) else valueOf 10 ds, 1 + sign + ds.length)
    else (0, 0)
  | [] => (0, 0)

/-- A numerator and a denominator. -/
structure Quotient where
  num : Nat
  den : Nat

/-- `m * base ^ e`. -/
def Quotient.scale (m base : Nat) (e : Int) : Quotient :=
  ⟨m * base ^ e.toNat, base ^ (-e).toNat⟩

def decimal (cs : List Char) : Option (Quotient × Nat) :=
  let (m, behind, len) := mantissa 10 isDigitChar cs
  let (e, elen) := exponent 'e' (cs.drop len)
  if len = 0 then none else some (.scale m 10 (e - behind), len + elen)

/-- Behind `0x`; the exponent is one of 2. -/
def hexadecimal : List Char → Option (Quotient × Nat)
  | '0' :: x :: cs =>
    let (m, behind, len) := mantissa 16 isHexChar cs
    let (e, elen) := exponent 'p' (cs.drop len)
    if x.toLower = 'x' && len ≠ 0 then some (.scale m 2 (e - 4 * behind), 2 + len + elen) else none
  | _ => none

def startsWith (word : String) (cs : List Char) : Bool :=
  (cs.take word.length).map Char.toLower = word.toList

def isWordChar (c : Char) : Bool := c.isAlphanum || c = '_'

/-- The length of `(..)` behind a NaN. -/
def payload : List Char → Nat
  | '(' :: cs =>
    let word := cs.takeWhile isWordChar
    if (cs.drop word.length).head? = some ')' then word.length + 2 else 0
  | _ => 0

def infinite (negative : Bool) : BitVec 64 := Binary64.pack negative Binary64.infinity

/-- The words. -/
def special (negative : Bool) (cs : List Char) : Option (BitVec 64 × Nat) :=
  if startsWith "infinity" cs then some (infinite negative, 8)
  else if startsWith "inf" cs then some (infinite negative, 3)
  else if startsWith "nan" cs then
    some (Binary64.pack negative Binary64.nanMagnitude, 3 + payload (cs.drop 3))
  else none

/-- `ERANGE`: the number is too large, or it is not zero and loses digits below the least normal
one. -/
def outOfRange (q : Quotient) : Bool :=
  let m := Binary64.roundMagnitude (q.num * Binary64.one) q.den
  m = Binary64.infinity || (m < 2 ^ 52 && q.num * Binary64.one % q.den ≠ 0)

end Strtod

open Strtod in
def stod (s : String) : Option (Double × Nat) :=
  let blanks := s.toList.takeWhile isSpaceChar
  let (negative, sign, body) := splitSign (s.toList.drop blanks.length)
  match special negative body with
  | some (bits, len) => some (⟨bits⟩, blanks.length + sign + len)
  | none =>
    match (hexadecimal body).or (decimal body) with
    | some (q, len) =>
      if outOfRange q then none
      else
        some (⟨Binary64.round negative (q.num * Binary64.one) q.den⟩, blanks.length + sign + len)
    | none => none

/-! ## Integers -/

namespace Strtod

variable {ds : List Char} {c : Char}

/-- A sign and digits, up to the end. -/
structure Integer (s : String) (negative : Bool) (ds : List Char) : Prop where
  sign : ∃ n, splitSign (s.toList.drop (s.toList.takeWhile isSpaceChar).length) =
    (negative, n, ds) ∧ (s.toList.takeWhile isSpaceChar).length + n + ds.length = s.length
  digits : ∀ c ∈ ds, isDigitChar c
  some : ds ≠ []

theorem splitSign_length (cs : List Char) :
    (splitSign cs).2.1 + (splitSign cs).2.2.length = cs.length := by
  rw [splitSign.eq_def]
  split <;> simp [Nat.add_comm]

theorem stoll_eq (s : String) :
    stoll s =
      let blanks := s.toList.takeWhile isSpaceChar
      let (negative, sign, digits) := splitSign (s.toList.drop blanks.length)
      let (n, len) := leadingDigits digits
      let v : Int := if negative then -(n : Int) else n
      if len = 0 then .invalidArgument
      else if v < int64Min || int64Max < v then .outOfRange
      else .ok (Int64.ofInt v) (blanks.length + sign + len) := rfl

theorem digitValue_eq (h : isDigitChar c) : digitValue c = c.toNat - '0'.toNat := if_pos h

theorem leadingDigits_all (h : ∀ c ∈ ds, isDigitChar c) :
    leadingDigits ds = (valueOf 10 ds, ds.length) := by
  have hall : ds.takeWhile isDigitChar = ds := List.takeWhile_eq_self_iff.mpr h
  rw [leadingDigits, hall, valueOf]
  refine Prod.ext (List.foldl_ext _ _ 0 fun n c hc => ?_) rfl
  rw [digitValue_eq (h c hc)]

/-- What `stoll` consumes whole is an integer. -/
theorem integer_of_stoll {s : String} {i : Int64} (h : stoll s = .ok i s.length) :
    ∃ negative ds, Integer s negative ds ∧
      i.toInt = if negative then -(valueOf 10 ds : Int) else valueOf 10 ds := by
  simp only [stoll_eq, leadingDigits] at h
  have hblanks : (s.toList.takeWhile isSpaceChar).length + (s.toList.drop
      (s.toList.takeWhile isSpaceChar).length).length = s.length := by
    rw [List.length_drop, String.length_toList]
    have hle := (List.takeWhile_prefix isSpaceChar (l := s.toList)).length_le
    rw [String.length_toList] at hle
    omega
  have hsign := splitSign_length (s.toList.drop (s.toList.takeWhile isSpaceChar).length)
  generalize hsplit : splitSign (s.toList.drop (s.toList.takeWhile isSpaceChar).length) = parts
    at h hsign
  obtain ⟨negative, n, digits⟩ := parts
  simp only at h hsign
  generalize hv : (if negative = true then _ else _ : Int) = v at h
  split at h
  · cases h
  · next hlen =>
    split at h
    · cases h
    · next hrange =>
      obtain ⟨rfl, hpos⟩ := StollResult.ok.inj h
      have hall : digits.takeWhile isDigitChar = digits := by
        refine (List.takeWhile_prefix isDigitChar).eq_of_length ?_
        omega
      have hdigits : ∀ c ∈ digits, isDigitChar c := List.takeWhile_eq_self_iff.mp hall
      have hvalue := congrArg Prod.fst (leadingDigits_all hdigits)
      rw [hall] at hlen hpos hv
      simp only [leadingDigits, hall] at hvalue
      rw [hvalue] at hv
      rw [Bool.or_eq_true, not_or, decide_eq_true_iff, decide_eq_true_iff, int64Min, int64Max] at hrange
      refine ⟨negative, digits, ⟨⟨n, hsplit, hpos⟩, hdigits, ?_⟩, ?_⟩
      · exact fun hnil => hlen (List.length_eq_zero_iff.mpr hnil)
      · rw [hv]
        exact Int64.toInt_ofInt_of_le (by omega) (by omega)

theorem toLower_digit (hc : isDigitChar c) : c.toLower = c := by
  obtain ⟨-, hhigh⟩ := isDigitChar_iff.mp hc
  delta Char.toLower
  rw [dif_neg]
  intro h
  have hlow : 65 ≤ c.toNat := h.1
  omega

theorem startsWith_digit {word : String} {w : Char} {ws : List Char} (hc : isDigitChar c)
    (hword : word.toList = w :: ws) (hw : ¬isDigitChar w) : startsWith word (c :: ds) = false := by
  have hlen : word.length = ws.length + 1 := by
    rw [← String.length_toList, hword, List.length_cons]
  rw [startsWith, hlen, hword, List.take_succ_cons, List.map_cons, toLower_digit hc]
  refine decide_eq_false fun h => hw ?_
  rw [← (List.cons.inj h).1]
  exact hc

theorem special_digits {negative : Bool} (hd : ∀ c ∈ ds, isDigitChar c) (hne : ds ≠ []) :
    special negative ds = none := by
  obtain ⟨c, cs, rfl⟩ := List.exists_cons_of_ne_nil hne
  have hc := hd c List.mem_cons_self
  rw [special, startsWith_digit hc rfl (by decide), startsWith_digit hc rfl (by decide),
    startsWith_digit hc rfl (by decide)]
  rfl

theorem hexadecimal_digits (hd : ∀ c ∈ ds, isDigitChar c) : hexadecimal ds = none := by
  rw [hexadecimal.eq_def]
  split
  · next x cs =>
    have hx := hd x (List.mem_cons_of_mem _ List.mem_cons_self)
    have hne : x.toLower ≠ 'x' := by
      rw [toLower_digit hx]
      rintro rfl
      cases hx
    simp [hne]
  · rfl

theorem decimal_digits (hd : ∀ c ∈ ds, isDigitChar c) (hne : ds ≠ []) :
    decimal ds = some (⟨valueOf 10 ds, 1⟩, ds.length) := by
  have hall : ds.takeWhile isDigitChar = ds := List.takeWhile_eq_self_iff.mpr hd
  have hlen : ds.length ≠ 0 := fun h => hne (List.length_eq_zero_iff.mp h)
  have hmantissa : mantissa 10 isDigitChar ds = (valueOf 10 ds, 0, ds.length) := by
    simp only [mantissa, hall, List.drop_length]
  simp [decimal, hmantissa, exponent, hlen, Quotient.scale]

/-- An integer that fits is rounded, and is in range. -/
theorem outOfRange_integer {m : Nat} (h : m ≤ 2 ^ 63) : outOfRange ⟨m, 1⟩ = false := by
  have hle := Binary64.roundMagnitude_mono (q := 1) (Nat.mul_le_mul_right Binary64.one h)
  have hmax : Binary64.roundMagnitude (2 ^ 63 * Binary64.one) 1 < Binary64.infinity := by
    decide +kernel
  have hlt : Binary64.roundMagnitude (m * Binary64.one) 1 ≠ Binary64.infinity := by omega
  simp [outOfRange, hlt, Nat.mod_one]

/-- An integer is read to its end, and rounded. -/
theorem stod_integer {s : String} {negative : Bool} (h : Integer s negative ds)
    (hm : valueOf 10 ds ≤ 2 ^ 63) :
    stod s = some (⟨Binary64.round negative (valueOf 10 ds * Binary64.one) 1⟩, s.length) := by
  obtain ⟨n, hsplit, hlen⟩ := h.sign
  simp only [stod, hsplit, special_digits h.digits h.some, hexadecimal_digits h.digits,
    decimal_digits h.digits h.some, Option.none_or, outOfRange_integer hm, hlen]
  rfl

end Strtod

end Look
