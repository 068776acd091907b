/-
Integers as decimal text.

A byte string is read as the text with one character for each byte, so that what the source
does to a `char *` is done to the text.
-/
import Look.Lib.Find
import Look.Value

namespace Look

/-- The text with the characters of the bytes. -/
def chars (bs : List UInt8) : String := String.ofList (bs.map fun b => Char.ofNat b.toNat)

/-- `std::to_string` of an integer. -/
def intText (i : Int) : List UInt8 := ascii (toString i)

/-- A text of digits with zeros before them, at least `width` digits long. -/
def padded (width n : Nat) : List UInt8 :=
  List.replicate (width - (intText n).length) 0x30 ++ intText n

theorem chars_map {cs : List Char} (h : ∀ c ∈ cs, c.toNat < 128) :
    chars (cs.map fun c => UInt8.ofNat c.toNat) = String.ofList cs := by
  have hchar : ∀ c ∈ cs, Char.ofNat (UInt8.ofNat c.toNat).toNat = c := by
    intro c hc
    rw [UInt8.toNat_ofNat', Nat.mod_eq_of_lt (Nat.lt_trans (h c hc) (by decide)), Char.ofNat_toNat]
  rw [chars, List.map_map, Function.comp_def, List.map_congr_left hchar, List.map_id']

/-! ## The digits of a number -/

theorem isDigitChar_of_mem_toDigits {n : Nat} {c : Char} (hc : c ∈ Nat.toDigits 10 n) :
    isDigitChar c := by
  have h := Nat.isDigit_of_mem_toDigits (by decide) (by decide) hc
  simp only [Char.isDigit, Bool.and_eq_true, decide_eq_true_eq] at h
  simp only [isDigitChar, Bool.and_eq_true, decide_eq_true_eq, Char.le_def]
  exact h

theorem isDigitChar_iff {c : Char} : isDigitChar c ↔ 48 ≤ c.toNat ∧ c.toNat ≤ 57 := by
  simp only [isDigitChar, Bool.and_eq_true, decide_eq_true_eq, Char.le_def, UInt32.le_iff_toNat_le]
  exact Iff.rfl

theorem isDigitChar_ne {c : Char} (h : isDigitChar c) :
    c ≠ '-' ∧ c ≠ '+' ∧ isSpaceChar c = false := by
  have hdigit := isDigitChar_iff.mp h
  refine ⟨?_, ?_, Bool.eq_false_iff.mpr fun hs => ?_⟩
  · rintro rfl
    simp at hdigit
  · rintro rfl
    simp at hdigit
  · simp only [isSpaceChar, Bool.or_eq_true, decide_eq_true_eq] at hs
    rcases hs with ((((rfl | rfl) | rfl) | rfl) | rfl) | rfl <;> simp at hdigit

theorem leadingDigits_append {ds rest : List Char} (hd : ∀ c ∈ ds, isDigitChar c)
    (hr : ∀ c ∈ rest.head?, ¬isDigitChar c) :
    leadingDigits (ds ++ rest) = (Nat.ofDigitChars 10 ds 0, ds.length) := by
  have htake : (ds ++ rest).takeWhile isDigitChar = ds := by
    rw [List.takeWhile_append_of_pos hd]
    cases rest with
    | nil => rw [List.takeWhile_nil, List.append_nil]
    | cons c rest =>
      rw [List.takeWhile_cons_of_neg (hr c rfl), List.append_nil]
  rw [leadingDigits, htake]
  rfl

/-- What stands before the digits of a number. -/
theorem stoll_digits {ds : List Char} (rest : List Char) (hne : ds ≠ [])
    (hd : ∀ c ∈ ds, isDigitChar c)
    (hr : ∀ c ∈ rest.head?, ¬isDigitChar c) (neg : Bool) :
    stoll (String.ofList ((if neg then ['-'] else []) ++ ds ++ rest)) =
      let v : Int := if neg then -(Nat.ofDigitChars 10 ds 0 : Int) else Nat.ofDigitChars 10 ds 0
      if v < int64Min || int64Max < v then .outOfRange
      else .ok (Int64.ofInt v) ((if neg then 1 else 0) + ds.length) := by
  have hlead := leadingDigits_append hd hr
  have hlen : ds.length ≠ 0 := fun h => hne (List.length_eq_zero_iff.mp h)
  cases neg with
  | true =>
    rw [stoll, String.toList_ofList]
    simp [isSpaceChar, hlead, hlen]
  | false =>
    obtain ⟨d, ds', rfl⟩ := List.exists_cons_of_ne_nil hne
    obtain ⟨hminus, hplus, hspace⟩ := isDigitChar_ne (hd d List.mem_cons_self)
    rw [stoll, String.toList_ofList]
    simp only [List.cons_append, List.nil_append, Bool.false_eq_true, if_false] at hlead ⊢
    simp [hspace, hminus, hplus, hlead]

/-- The bytes of a number: a minus sign, if there is one, and digits. -/
def numeral (neg : Bool) (ds : List Char) : List UInt8 :=
  ((if neg then ['-'] else []) ++ ds).map fun c => UInt8.ofNat c.toNat

theorem stoll_numeral {ds : List Char} (hne : ds ≠ []) (hd : ∀ c ∈ ds, isDigitChar c)
    (neg : Bool) :
    stoll (chars (numeral neg ds)) =
      let v : Int := if neg then -(Nat.ofDigitChars 10 ds 0 : Int) else Nat.ofDigitChars 10 ds 0
      if v < int64Min || int64Max < v then .outOfRange
      else .ok (Int64.ofInt v) ((if neg then 1 else 0) + ds.length) := by
  have hascii : ∀ c ∈ (if neg then ['-'] else []) ++ ds, c.toNat < 128 := by
    intro c hc
    rcases List.mem_append.mp hc with hc | hc
    · split at hc
      · obtain rfl := List.mem_singleton.mp hc
        decide
      · cases hc
    · have hle := (isDigitChar_iff.mp (hd c hc)).2
      omega
  have h := stoll_digits [] hne hd (by simp) neg
  rw [List.append_nil] at h
  rw [numeral, chars_map hascii, h]

theorem intText_eq (i : Int) : intText i = numeral (i < 0) (Nat.toDigits 10 i.natAbs) := by
  have htext : (toString i).toList =
      (if i < 0 then ['-'] else []) ++ Nat.toDigits 10 i.natAbs := by
    rw [Int.toString_eq_repr, Int.repr_eq_if]
    split
    · rename_i hi
      have hnat : i.toNat = i.natAbs := by omega
      rw [if_neg (Int.not_lt.mpr hi), List.nil_append, Nat.repr, String.toList_ofList, hnat]
    · rename_i hi
      have hnat : (-i).toNat = i.natAbs := by omega
      rw [if_pos (Int.not_le.mp hi), String.toList_append, Nat.repr, hnat]
      exact congrArg ('-' :: ·) String.toList_ofList
  rw [intText, ascii, htext, numeral]
  simp only [decide_eq_true_eq]

theorem intText_nat (n : Nat) :
    intText n = (Nat.toDigits 10 n).map fun c => UInt8.ofNat c.toNat := by
  rw [intText_eq, decide_eq_false (Int.not_lt.mpr (Int.natCast_nonneg n)), Int.natAbs_natCast,
    numeral, if_neg Bool.false_ne_true, List.nil_append]

/-- The characters of a number are its digits. -/
theorem chars_intText (n : Nat) : (chars (intText n)).toList = Nat.toDigits 10 n := by
  have hascii : ∀ c ∈ Nat.toDigits 10 n, c.toNat < 128 := by
    intro c hc
    have hle := (isDigitChar_iff.mp (isDigitChar_of_mem_toDigits hc)).2
    omega
  rw [intText_nat, chars_map hascii, String.toList_ofList]

theorem padded_eq (width n : Nat) : padded width n =
    numeral false (List.replicate (width - (intText n).length) '0' ++ Nat.toDigits 10 n) := by
  rw [padded, numeral, if_neg Bool.false_ne_true, List.nil_append, List.map_append,
    List.map_replicate, ← intText_nat]
  rfl

/-- `std::stoll` reads back what `std::to_string` wrote, as far as it fits. -/
theorem stoll_intText (i : Int) :
    stoll (chars (intText i)) =
      if i < int64Min || int64Max < i then .outOfRange
      else .ok (Int64.ofInt i) ((if i < 0 then 1 else 0) + (Nat.toDigits 10 i.natAbs).length) := by
  have hval : (if decide (i < 0) = true then -(i.natAbs : Int) else i.natAbs) = i := by
    simp only [decide_eq_true_eq]
    split <;> omega
  rw [intText_eq, stoll_numeral Nat.toDigits_ne_nil fun c => isDigitChar_of_mem_toDigits,
    Nat.ofDigitChars_ten_toDigits]
  dsimp only
  rw [hval]
  simp only [decide_eq_true_eq]

theorem stoll_toInt (i : Int64) : ∃ pos, stoll (chars (intText i.toInt)) = .ok i pos := by
  have hmin : int64Min ≤ i.toInt := i.le_toInt
  have hmax : i.toInt ≤ int64Max := i.toInt_le
  have hstoll := stoll_intText i.toInt
  rw [if_neg (by simp [hmin, hmax]), Int64.ofInt_toInt] at hstoll
  exact ⟨_, hstoll⟩

/-- An `int64_t` is known from its text. -/
theorem intText_inj {i : Int64} {j : Int} (h : intText i.toInt = intText j) : i.toInt = j := by
  obtain ⟨pos, hi⟩ := stoll_toInt i
  have hstoll := stoll_intText j
  rw [← h, hi] at hstoll
  by_cases hj : j < int64Min || int64Max < j
  · rw [if_pos hj] at hstoll
    cases hstoll
  · rw [if_neg hj] at hstoll
    simp only [Bool.or_eq_true, decide_eq_true_eq, not_or, Int.not_lt] at hj
    rw [(StollResult.ok.inj hstoll).1]
    exact Int64.toInt_ofInt_of_le hj.1 (Int.lt_of_le_of_lt hj.2 (by decide))

/-- Zeros before a number do not count. -/
theorem stoll_padded (width n : Nat) :
    stoll (chars (padded width n)) =
      if int64Max < n then .outOfRange
      else .ok (Int64.ofInt n)
        (width - (intText n).length + (Nat.toDigits 10 n).length) := by
  have hd : ∀ c ∈ List.replicate (width - (intText n).length) '0' ++ Nat.toDigits 10 n,
      isDigitChar c := by
    intro c hc
    rcases List.mem_append.mp hc with hc | hc
    · obtain rfl := List.eq_of_mem_replicate hc
      rfl
    · exact isDigitChar_of_mem_toDigits hc
  have hmin : ¬ (n : Int) < int64Min := by
    have hpos := Int.natCast_nonneg n
    rw [int64Min]
    omega
  rw [padded_eq, stoll_numeral (by simp) hd, Nat.ofDigitChars_append,
    Nat.ofDigitChars_replicate_zero, Nat.mul_zero, Nat.ofDigitChars_ten_toDigits]
  simp [hmin]

end Look
