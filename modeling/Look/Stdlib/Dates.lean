/-
`date::add`, `date::sub` and `date::diff`.

`mktime` and `localtime` are those of the host.  What is asked of `mktime` is that it carries the
months and the days of a midnight over into the Gregorian date that they reach.
-/
import Look.Decimal
import Look.Lib.Calendar
import Mathlib

namespace Look

namespace Dates

open Calendar

abbrev Bytes := List UInt8

/-- `struct tm`, the fields that are read. -/
structure Tm where
  year : Int
  mon : Int
  mday : Int
  hour : Int
  min : Int
  sec : Int
  isdst : Int
deriving DecidableEq

/-- An `int`. -/
def int32 (i : Int) : Int := i.bmod Int32.size

/-! ## `sscanf` -/

inductive Directive where
  | int (width : Nat)
  | lit (c : Char)
  | blanks
deriving DecidableEq

/-- `%<width>d`: the number, and what stands behind it. -/
def scanInt (width : Nat) (cs : List Char) : Option (Int × List Char) :=
  let rest := cs.dropWhile isSpaceChar
  let (negative, sign, digits) := match rest with
    | '-' :: ds => (true, 1, ds)
    | '+' :: ds => (false, 1, ds)
    | ds => (false, 0, ds)
  let (n, len) := leadingDigits (digits.take (width - sign))
  if len = 0 then none
  else some (if negative then -(n : Int) else n, digits.drop len)

/-- The numbers that are assigned before the text stops matching. -/
def sscanf : List Directive → List Char → List Int
  | [], _ => []
  | .int width :: format, cs =>
    match scanInt width cs with
    | none => []
    | some (v, rest) => v :: sscanf format rest
  | .lit c :: format, d :: cs => if d = c then sscanf format cs else []
  | .lit _ :: _, [] => []
  | .blanks :: format, cs => sscanf format (cs.dropWhile isSpaceChar)

/-- `%4d-%2d-%2d`. -/
def dateFormat : List Directive := [.int 4, .lit '-', .int 2, .lit '-', .int 2]

/-- ` %2d:%2d:%2d`. -/
def timeFormat : List Directive := [.blanks, .int 2, .lit ':', .int 2, .lit ':', .int 2]

/-- The characters of a `char *`. -/
def cChars (s : Bytes) : List Char := (chars s).toList.takeWhile (· ≠ '\x00')

/-- A field that was not assigned is zero. -/
def parseIso (s : Bytes) : Except Bytes Tm :=
  let fields (vs : List Int) : Tm :=
    { year := vs.getD 0 0 - 1900, mon := vs.getD 1 0 - 1, mday := vs.getD 2 0
      hour := vs.getD 3 0, min := vs.getD 4 0, sec := vs.getD 5 0, isdst := -1 }
  if 19 ≤ s.length then .ok (fields (sscanf (dateFormat ++ timeFormat) (cChars s)))
  else if 10 ≤ s.length then .ok (fields (sscanf dateFormat (cChars s)))
  else .error (ascii "date: invalid date: " ++ s)

/-- `%0<width>d`. -/
def printInt (width : Nat) (i : Int) : Bytes :=
  if i < 0 then 0x2D :: padded (width - 1) i.natAbs else padded width i.natAbs

/-- The text has place for 31 bytes. -/
def tmToIso (t : Tm) (withTime : Bool) : Bytes :=
  let date := printInt 4 (t.year + 1900) ++ [0x2D] ++ printInt 2 (t.mon + 1) ++ [0x2D] ++
    printInt 2 t.mday
  let time := [0x20] ++ printInt 2 t.hour ++ [0x3A] ++ printInt 2 t.min ++ [0x3A] ++ printInt 2 t.sec
  (if withTime then date ++ time else date).take 31

/-! ## The functions -/

/-- A unit in one of its two spellings. -/
def isUnit (one many : String) (unit : Bytes) : Bool := unit == ascii one || unit == ascii many

def isDay : Bytes → Bool := isUnit "day" "days"

def isWeek : Bytes → Bool := isUnit "week" "weeks"

def isMonth : Bytes → Bool := isUnit "month" "months"

def isYear : Bytes → Bool := isUnit "year" "years"

def unitToSeconds (unit : Bytes) : Except Bytes Int :=
  if isUnit "second" "seconds" unit then .ok 1
  else if isUnit "minute" "minutes" unit then .ok 60
  else if isUnit "hour" "hours" unit then .ok 3600
  else if isDay unit then .ok 86400
  else if isWeek unit then .ok 604800
  else if isMonth unit then .ok (-30)
  else if isYear unit then .ok (-365)
  else .error (ascii "date::add/sub: invalid unit '" ++ unit ++
    ascii "' (second/minute/hour/day/week/month/year)")

/-- `y` is the year, `m` the month from 1 on. -/
def daysFromCivil (y m d : Int) : Int :=
  let y := if m ≤ 2 then y - 1 else y
  let era := (if 0 ≤ y then y else y - 399).tdiv 400
  let yoe := UInt32.ofInt (y - era * 400)
  let doy := UInt32.ofInt ((153 * (m + if 2 < m then -3 else 9) + 2).tdiv 5) + UInt32.ofInt d - 1
  let doe := yoe * 365 + yoe / 4 - yoe / 100 + doy
  era * 146097 + doe.toNat - 719468

/-- `mktime` gives the seconds and the normalised fields. -/
structure Host where
  mktime : Tm → Int × Tm
  localtime : Int → Tm

section Functions

variable (host : Host)

/-- What `date::add` and `date::sub` share: `move` is `+` or `-`. -/
def shifted (move : Int → Int → Int) (src : Bytes) (amount : Int64) (unit : Bytes) :
    Except Bytes Bytes := do
  let t ← parseIso src
  let hasTime := decide (19 ≤ src.length)
  let amount := int32 amount.toInt
  if isMonth unit then
    pure (tmToIso (host.mktime { t with mon := int32 (move t.mon amount) }).2 hasTime)
  else if isYear unit then
    pure (tmToIso (host.mktime { t with year := int32 (move t.year amount) }).2 hasTime)
  else if isDay unit then
    pure (tmToIso (host.mktime { t with mday := int32 (move t.mday amount) }).2 hasTime)
  else if isWeek unit then
    pure (tmToIso (host.mktime { t with mday := int32 (move t.mday (int32 (amount * 7))) }).2 hasTime)
  else do
    let secs := amount * (← unitToSeconds unit)
    pure (tmToIso (host.localtime (move (host.mktime t).1 secs)) hasTime)

def add (src : Bytes) (amount : Int64) (unit : Bytes) : Except Bytes Bytes :=
  shifted host (· + ·) src amount unit

def sub (src : Bytes) (amount : Int64) (unit : Bytes) : Except Bytes Bytes :=
  shifted host (· - ·) src amount unit

def diff (src₁ src₂ unit : Bytes) : Except Bytes Int64 := do
  let t₁ ← parseIso src₁
  let t₂ ← parseIso src₂
  if isDay unit || isWeek unit then
    let days := daysFromCivil (t₁.year + 1900) (t₁.mon + 1) t₁.mday -
      daysFromCivil (t₂.year + 1900) (t₂.mon + 1) t₂.mday
    pure (Int64.ofInt (if unit.head? = some 0x77 then days.tdiv 7 else days))
  else do
    let secs := (host.mktime t₁).1 - (host.mktime t₂).1
    let div ← unitToSeconds unit
    pure (Int64.ofInt (if div ≠ 0 then secs.tdiv div else 0))

end Functions

/-! ## Day numbers -/

/-- The days before a month, counted from the first of March. -/
theorem daysBefore_civil (leap : Bool) {m : Nat} (h : 1 ≤ m ∧ m ≤ 12) :
    (daysBefore leap m : Int) + 306 =
      (153 * ((m : Int) + if 2 < (m : Int) then -3 else 9) + 2).tdiv 5 +
        if m ≤ 2 then 0 else daysBefore leap 13 := by
  have hall : ∀ leap : Bool, ∀ k < 12, (daysBefore leap (k + 1) : Int) + 306 =
      (153 * (((k + 1 : Nat) : Int) + if 2 < ((k + 1 : Nat) : Int) then -3 else 9) + 2).tdiv 5 +
        if k + 1 ≤ 2 then 0 else daysBefore leap 13 := by decide
  have hk := hall leap (m - 1) (by omega)
  rw [Nat.sub_add_cancel h.1] at hk
  exact hk

/-- The days of the years of an era, with March as the first month. -/
theorem yearStart_era (y : Int) :
    yearStart (y + 1) =
      y / 400 * 146097 + (y % 400 * 365 + y % 400 / 4 - y % 400 / 100) := by
  rw [yearStart]
  omega

theorem toNat_ofInt {i : Int} (h : 0 ≤ i ∧ i < 2 ^ 32) : ((UInt32.ofInt i).toNat : Int) = i := by
  rw [UInt32.ofInt, UInt32.toNat_ofNat']
  omega

/-- The day of an era does not leave an `unsigned int`. -/
theorem toNat_doe {yoe mar d : Int} (hyoe : 0 ≤ yoe ∧ yoe < 400) (hmar : 0 ≤ mar ∧ mar < 400)
    (hd : 1 ≤ d ∧ d < 32) :
    (((UInt32.ofInt yoe * 365 + UInt32.ofInt yoe / 4 - UInt32.ofInt yoe / 100 +
      (UInt32.ofInt mar + UInt32.ofInt d - 1)).toNat : Nat) : Int) =
      yoe * 365 + yoe / 4 - yoe / 100 + (mar + d - 1) := by
  have hy := toNat_ofInt (i := yoe) (by omega)
  have hm := toNat_ofInt (i := mar) (by omega)
  have hd' := toNat_ofInt (i := d) (by omega)
  have hsum : (UInt32.ofInt yoe * 365 + UInt32.ofInt yoe / 4).toNat =
      (UInt32.ofInt yoe).toNat * 365 + (UInt32.ofInt yoe).toNat / 4 := by
    simp only [UInt32.toNat_add, UInt32.toNat_mul, UInt32.toNat_div, UInt32.reduceToNat]
    omega
  have hyears : (UInt32.ofInt yoe * 365 + UInt32.ofInt yoe / 4 - UInt32.ofInt yoe / 100).toNat =
      (UInt32.ofInt yoe).toNat * 365 + (UInt32.ofInt yoe).toNat / 4 -
        (UInt32.ofInt yoe).toNat / 100 := by
    have hle : UInt32.ofInt yoe / 100 ≤ UInt32.ofInt yoe * 365 + UInt32.ofInt yoe / 4 := by
      rw [UInt32.le_iff_toNat_le, hsum, UInt32.toNat_div]
      change _ / 100 ≤ _
      omega
    rw [UInt32.toNat_sub_of_le _ _ hle, hsum, UInt32.toNat_div]
    rfl
  have hday : (UInt32.ofInt mar + UInt32.ofInt d - 1).toNat =
      (UInt32.ofInt mar).toNat + (UInt32.ofInt d).toNat - 1 := by
    have hadd : (UInt32.ofInt mar + UInt32.ofInt d).toNat =
        (UInt32.ofInt mar).toNat + (UInt32.ofInt d).toNat := by
      rw [UInt32.toNat_add]
      omega
    have hle : 1 ≤ UInt32.ofInt mar + UInt32.ofInt d := by
      rw [UInt32.le_iff_toNat_le, hadd]
      change 1 ≤ _
      omega
    rw [UInt32.toNat_sub_of_le _ _ hle, hadd]
    rfl
  rw [UInt32.toNat_add, hyears, hday, Nat.mod_eq_of_lt (by omega)]
  generalize (UInt32.ofInt yoe).toNat = a at hy ⊢
  generalize (UInt32.ofInt mar).toNat = b at hm ⊢
  generalize (UInt32.ofInt d).toNat = c at hd' ⊢
  subst hy hm hd'
  omega

/-- `days_from_civil` counts the days, the first of January of 1970 as day 0. -/
theorem daysFromCivil_date (d : Date) (hy : 1 ≤ d.year) :
    daysFromCivil d.year d.month d.day = d.number - 719163 := by
  have hmonth := d.monthOk
  have hday := d.dayOk
  have hlen := (monthLength_range (isLeap d.year) d.month).2
  have hcivil := daysBefore_civil (isLeap d.year) hmonth
  have hsucc := yearStart_succ d.year
  obtain ⟨y, hyear⟩ : ∃ y : Int, y = if (d.month : Int) ≤ 2 then d.year - 1 else d.year := ⟨_, rfl⟩
  obtain ⟨mar, hmar⟩ : ∃ mar : Int,
    mar = (153 * ((d.month : Int) + if 2 < (d.month : Int) then -3 else 9) + 2).tdiv 5 := ⟨_, rfl⟩
  have hlow : 0 ≤ y := by
    rw [hyear]
    split <;> omega
  have hera : y.tdiv 400 = y / 400 := Int.tdiv_eq_ediv_of_nonneg hlow
  have hmarRange : 0 ≤ mar ∧ mar < 400 := by
    rw [hmar, Int.tdiv_eq_ediv_of_nonneg (by split <;> omega)]
    split <;> omega
  rw [← hmar] at hcivil
  have hstart := yearStart_era y
  have hciv : daysFromCivil d.year d.month d.day =
      y / 400 * 146097 + (y % 400 * 365 + y % 400 / 4 - y % 400 / 100 + (mar + d.day - 1)) -
        719468 := by
    have hyoe : y - y / 400 * 400 = y % 400 := by omega
    rw [daysFromCivil, ← hyear, ← hmar, if_pos hlow, hera, hyoe,
      toNat_doe (by omega) hmarRange (by omega)]
  rw [hciv, Date.number]
  by_cases hm : d.month ≤ 2
  · rw [if_pos (by omega)] at hyear hcivil
    rw [hyear, Int.sub_add_cancel] at hstart
    omega
  · rw [if_neg (by omega)] at hyear hcivil
    rw [hyear] at hstart
    omega

/-! ## Texts -/

/-- The digits of a number with zeros before them. -/
def digits (width n : Nat) : List Char :=
  List.replicate (width - (Nat.toDigits 10 n).length) '0' ++ Nat.toDigits 10 n

section Digits

variable {width n : Nat}

theorem isDigitChar_digits {c : Char} (h : c ∈ digits width n) : isDigitChar c := by
  rcases List.mem_append.mp h with h | h
  · obtain rfl := List.eq_of_mem_replicate h
    rfl
  · exact isDigitChar_of_mem_toDigits h

theorem ofDigitChars_digits : Nat.ofDigitChars 10 (digits width n) 0 = n := by
  rw [digits, Nat.ofDigitChars_append, Nat.ofDigitChars_replicate_zero, Nat.mul_zero,
    Nat.ofDigitChars_ten_toDigits]

theorem length_digits (hw : 0 < width) (h : n < 10 ^ width) : (digits width n).length = width := by
  have hle := (Nat.length_toDigits_le_iff (by decide) hw).mpr h
  rw [digits, List.length_append, List.length_replicate, Nat.sub_add_cancel hle]

theorem padded_digits (width n : Nat) :
    padded width n = (digits width n).map fun c => UInt8.ofNat c.toNat := by
  have hlen : (intText n).length = (Nat.toDigits 10 n).length := by
    rw [intText_nat, List.length_map]
  rw [padded_eq, hlen]
  rfl

theorem length_padded (hw : 0 < width) (h : n < 10 ^ width) : (padded width n).length = width := by
  rw [padded_digits, List.length_map, length_digits hw h]

/-- The characters of a padded number are its digits. -/
theorem chars_padded (width n : Nat) : (chars (padded width n)).toList = digits width n := by
  have hascii : ∀ c ∈ digits width n, c.toNat < 128 := by
    intro c hc
    have hle := (isDigitChar_iff.mp (isDigitChar_digits hc)).2
    omega
  rw [padded_digits, chars_map hascii, String.toList_ofList]

/-- A number with all its digits is read as it was written. -/
theorem scanInt_digits (hw : 0 < width) (h : n < 10 ^ width) (rest : List Char) :
    scanInt width (digits width n ++ rest) = some ((n : Int), rest) := by
  have hlen := length_digits hw h
  have hend : ∀ c ∈ ([] : List Char).head?, ¬ isDigitChar c := nofun
  have hlead := leadingDigits_append (fun c (hc : c ∈ digits width n) => isDigitChar_digits hc) hend
  rw [List.append_nil, ofDigitChars_digits, hlen] at hlead
  have htake : (digits width n ++ rest).take width = digits width n := List.take_left' hlen
  have hdrop : (digits width n ++ rest).drop width = rest := List.drop_left' hlen
  obtain ⟨d, ds, hcons⟩ := List.exists_cons_of_length_pos (hlen ▸ hw)
  obtain ⟨hminus, hplus, hspace⟩ := isDigitChar_ne (isDigitChar_digits (hcons ▸ List.mem_cons_self))
  have hskip : (digits width n ++ rest).dropWhile isSpaceChar = digits width n ++ rest := by
    rw [hcons, List.cons_append, List.dropWhile_cons, hspace, if_neg Bool.false_ne_true]
  rw [scanInt, hskip]
  have hsign : (match digits width n ++ rest with
      | '-' :: ds => (true, 1, ds)
      | '+' :: ds => (false, 1, ds)
      | ds => (false, 0, ds)) = (false, 0, digits width n ++ rest) := by
    rw [hcons, List.cons_append]
    split
    · rename_i heq
      exact absurd (List.cons.inj heq).1 hminus
    · rename_i heq
      exact absurd (List.cons.inj heq).1 hplus
    · rfl
  rw [hsign]
  dsimp only
  rw [Nat.sub_zero, htake, hlead]
  dsimp only
  rw [hdrop, if_neg (Nat.ne_of_gt hw), if_neg Bool.false_ne_true]

end Digits

theorem chars_append (s t : Bytes) : (chars (s ++ t)).toList = (chars s).toList ++ (chars t).toList := by
  rw [chars, chars, chars, List.map_append, String.toList_ofList, String.toList_ofList,
    String.toList_ofList]

/-- A date of the years 1 to 9999. -/
def Plain (d : Date) : Prop := 1 ≤ d.year ∧ d.year ≤ 9999

/-- `YYYY-MM-DD`. -/
def isoText (d : Date) : Bytes :=
  padded 4 d.year.toNat ++ [0x2D] ++ padded 2 d.month ++ [0x2D] ++ padded 2 d.day

/-- The midnight of a date. -/
def midnight (d : Date) : Tm :=
  { year := d.year - 1900, mon := d.month - 1, mday := d.day, hour := 0, min := 0, sec := 0
    isdst := -1 }

section Plain

variable {d e : Date}

theorem toNat_year (h : Plain d) : (d.year.toNat : Int) = d.year ∧ d.year.toNat < 10 ^ 4 := by
  obtain ⟨hlow, hhigh⟩ := h
  omega

theorem month_lt (d : Date) : d.month < 10 ^ 2 := by
  have := d.monthOk
  omega

theorem day_lt (d : Date) : d.day < 10 ^ 2 := by
  have := d.dayOk
  have := (monthLength_range (isLeap d.year) d.month).2
  omega

theorem number_range (h : Plain d) : 0 < d.number ∧ d.number ≤ 3652059 := by
  have hyear := d.number_year
  have hlow := yearStart_mono h.1
  have hhigh := yearStart_mono (Int.add_le_add_right h.2 1)
  have hone : yearStart 1 = 0 := rfl
  have hlast : yearStart (9999 + 1) = 3652059 := rfl
  omega

theorem length_isoText (h : Plain d) : (isoText d).length = 10 := by
  simp only [isoText, List.length_append, List.length_cons, List.length_nil,
    length_padded (by decide) (toNat_year h).2, length_padded (by decide) (month_lt d),
    length_padded (by decide) (day_lt d)]

theorem cChars_isoText (d : Date) :
    cChars (isoText d) =
      digits 4 d.year.toNat ++ ('-' :: (digits 2 d.month ++ ('-' :: digits 2 d.day))) := by
  have hchars : (chars (isoText d)).toList =
      digits 4 d.year.toNat ++ ('-' :: (digits 2 d.month ++ ('-' :: digits 2 d.day))) := by
    have hdash : ∀ s : Bytes, (chars (0x2D :: s)).toList = '-' :: (chars s).toList := by
      intro s
      rw [chars, chars, String.toList_ofList, String.toList_ofList, List.map_cons]
      rfl
    simp only [isoText, List.append_assoc, List.singleton_append]
    simp only [chars_append, chars_padded, hdash]
    rfl
  have hdigit : ∀ {width n : Nat} {c : Char}, c ∈ digits width n → c ≠ '\x00' := by
    rintro width n c hc rfl
    exact absurd (isDigitChar_digits hc) (by decide)
  rw [cChars, hchars, List.takeWhile_eq_self_iff]
  intro c hc
  refine decide_eq_true ?_
  simp only [List.mem_append, List.mem_cons] at hc
  rcases hc with hc | rfl | hc | rfl | hc
  · exact hdigit hc
  · decide
  · exact hdigit hc
  · decide
  · exact hdigit hc

/-- A date is read as it is written. -/
theorem parseIso_isoText (h : Plain d) : parseIso (isoText d) = .ok (midnight d) := by
  have hlen := length_isoText h
  have hscan : sscanf dateFormat (cChars (isoText d)) = [d.year, (d.month : Int), (d.day : Int)] := by
    have hlast := scanInt_digits (by decide) (day_lt d) []
    rw [List.append_nil] at hlast
    rw [cChars_isoText, dateFormat, sscanf, scanInt_digits (by decide) (toNat_year h).2]
    dsimp only
    rw [sscanf, if_pos rfl, sscanf, scanInt_digits (by decide) (month_lt d)]
    dsimp only
    rw [sscanf, if_pos rfl, sscanf, hlast, (toNat_year h).1]
    rfl
  rw [parseIso, if_neg (by omega), if_pos (by omega), hscan]
  rfl

theorem printInt_nat (width n : Nat) : printInt width n = padded width n := by
  rw [printInt, if_neg (Int.not_lt.mpr (Int.natCast_nonneg n)), Int.natAbs_natCast]

/-- The fields of a date are written as the date. -/
theorem tmToIso_date {t : Tm} (h : Plain d) (hy : t.year + 1900 = d.year)
    (hm : t.mon + 1 = d.month) (hd : t.mday = d.day) : tmToIso t false = isoText d := by
  have hyear : printInt 4 d.year = padded 4 d.year.toNat := by
    rw [← (toNat_year h).1, printInt_nat, Int.toNat_natCast]
  rw [tmToIso, if_neg Bool.false_ne_true, hy, hm, hd, hyear, printInt_nat, printInt_nat]
  exact List.take_of_length_le (Nat.le_trans (Nat.le_of_eq (length_isoText h)) (by decide))

end Plain

/-! ## The calendar -/

/-- The first day of the month that the months reach. -/
def Tm.first (t : Tm) : Date :=
  Date.first (t.year + 1900 + t.mon / 12) ((t.mon % 12).toNat + 1) (by omega)

/-- `mktime` carries over what is too much for a month or a year. -/
def Normalises (host : Host) : Prop :=
  ∀ (t : Tm) (d : Date), t.hour = 0 → t.min = 0 → t.sec = 0 → t.isdst = -1 → Plain d →
    d.number = t.first.number + (t.mday - 1) →
    let r := (host.mktime t).2
    r.year + 1900 = d.year ∧ r.mon + 1 = d.month ∧ r.mday = d.day

theorem int32_eq {i : Int} (h : -2 ^ 31 ≤ i ∧ i < 2 ^ 31) : int32 i = i := by
  rw [int32, Int.bmod_eq_of_le]
  · exact h.1
  · exact h.2

theorem first_midnight (d : Date) (n : Int) :
    ({ midnight d with mday := n } : Tm).first.number = d.number - d.day + 1 := by
  have hmonth := d.monthOk
  have hyear : d.year - 1900 + 1900 + ((d.month : Int) - 1) / 12 = d.year := by omega
  have hmon : ((((d.month : Int) - 1) % 12).toNat + 1) = d.month := by omega
  have hfirst : ({ midnight d with mday := n } : Tm).first = Date.first d.year d.month hmonth :=
    Date.ext' hyear hmon rfl
  rw [hfirst, Date.number_first, Date.number]
  omega

section Calendar

variable {host : Host} {d e : Date} {n : Int64} {unit : Bytes} {move : Int → Int → Int}

theorem isDay_not (h : isDay unit = true) :
    isMonth unit = false ∧ isYear unit = false := by
  rw [isDay, isUnit, Bool.or_eq_true, beq_iff_eq, beq_iff_eq] at h
  rcases h with rfl | rfl <;> exact ⟨by decide, by decide⟩

theorem isWeek_not (h : isWeek unit = true) :
    isMonth unit = false ∧ isYear unit = false ∧ isDay unit = false ∧ unit.head? = some 0x77 := by
  rw [isWeek, isUnit, Bool.or_eq_true, beq_iff_eq, beq_iff_eq] at h
  rcases h with rfl | rfl <;> exact ⟨by decide, by decide, by decide, by decide⟩

/-- So many days away is a date. -/
theorem shifted_days (hhost : Normalises host) (hd : Plain d) (he : Plain e)
    (hunit : isDay unit = true)
    (hmove : int32 (move d.day (int32 n.toInt)) = d.day + (e.number - d.number)) :
    shifted host move (isoText d) n unit = .ok (isoText e) := by
  obtain ⟨hmonth, hyear⟩ := isDay_not hunit
  have hshort : decide (19 ≤ (isoText d).length) = false := by
    rw [length_isoText hd]
    rfl
  obtain ⟨hy, hm, hday⟩ := hhost { midnight d with mday := int32 (move d.day (int32 n.toInt)) } e
    rfl rfl rfl rfl he (by rw [first_midnight, hmove]; dsimp only; omega)
  rw [shifted, parseIso_isoText hd]
  simp only [hmonth, hyear, hunit, hshort]
  exact congrArg Except.ok (tmToIso_date he hy hm hday)

theorem shifted_weeks (hhost : Normalises host) (hd : Plain d) (he : Plain e)
    (hunit : isWeek unit = true)
    (hmove : int32 (move d.day (int32 (int32 n.toInt * 7))) = d.day + (e.number - d.number)) :
    shifted host move (isoText d) n unit = .ok (isoText e) := by
  obtain ⟨hmonth, hyear, hday, -⟩ := isWeek_not hunit
  have hshort : decide (19 ≤ (isoText d).length) = false := by
    rw [length_isoText hd]
    rfl
  obtain ⟨hy, hm, hmday⟩ := hhost
    { midnight d with mday := int32 (move d.day (int32 (int32 n.toInt * 7))) } e
    rfl rfl rfl rfl he (by rw [first_midnight, hmove]; dsimp only; omega)
  rw [shifted, parseIso_isoText hd]
  simp only [hmonth, hyear, hday, hunit, hshort]
  exact congrArg Except.ok (tmToIso_date he hy hm hmday)

theorem daysFromCivil_midnight (h : Plain d) :
    daysFromCivil ((midnight d).year + 1900) ((midnight d).mon + 1) (midnight d).mday =
      d.number - 719163 := by
  rw [← daysFromCivil_date d h.1, midnight]
  simp only [Int.sub_add_cancel]

theorem diff_days (hd : Plain d) (he : Plain e) (hunit : isDay unit = true) :
    diff host (isoText e) (isoText d) unit = .ok (Int64.ofInt (e.number - d.number)) := by
  have hhead : unit.head? ≠ some 0x77 := by
    rw [isDay, isUnit, Bool.or_eq_true, beq_iff_eq, beq_iff_eq] at hunit
    rcases hunit with rfl | rfl <;> decide
  rw [diff, parseIso_isoText hd, parseIso_isoText he]
  simp only [bind, Except.bind, hunit, Bool.true_or, daysFromCivil_midnight hd,
    daysFromCivil_midnight he, hhead, sub_sub_sub_cancel_right]
  rfl

theorem diff_weeks (hd : Plain d) (he : Plain e) (hunit : isWeek unit = true) :
    diff host (isoText e) (isoText d) unit =
      .ok (Int64.ofInt ((e.number - d.number).tdiv 7)) := by
  obtain ⟨-, -, hday, hhead⟩ := isWeek_not hunit
  rw [diff, parseIso_isoText hd, parseIso_isoText he]
  simp only [bind, Except.bind, hunit, Bool.or_true, daysFromCivil_midnight hd,
    daysFromCivil_midnight he, hhead, sub_sub_sub_cancel_right]
  rfl

/-- The days between two dates are few. -/
theorem shift_range (hd : Plain d) {i : Int} (he : Plain (d.shift i)) :
    -2 ^ 22 < i ∧ i < 2 ^ 22 ∧ (d.shift i).number = d.number + i := by
  have hnumber := d.number_shift i
  have hd' := number_range hd
  have he' := number_range he
  omega

end Calendar

section Correct

variable (host : Host)

/-- Days and weeks are counted by the Gregorian calendar. -/
theorem calendar_correct (hhost : Normalises host) :
    (∀ d : Date, Plain d → daysFromCivil d.year d.month d.day = d.number - 719163) ∧
      ∀ day week : Bytes, isDay day = true → isWeek week = true →
        (∀ d : Date, Plain d → Plain d.next →
          diff host (isoText d.next) (isoText d) day = .ok 1) ∧
        (∀ a b c : Date, Plain a → Plain b → Plain c → ∃ x y : Int64,
          diff host (isoText a) (isoText b) day = .ok x ∧
          diff host (isoText b) (isoText c) day = .ok y ∧
          diff host (isoText a) (isoText c) day = .ok (x + y) ∧
          diff host (isoText b) (isoText a) day = .ok (-x)) ∧
        (∀ (d : Date) (n : Int64), Plain d → Plain (d.shift n.toInt) →
          ∃ r, add host (isoText d) n day = .ok r ∧ r = isoText (d.shift n.toInt) ∧
            diff host r (isoText d) day = .ok n ∧ sub host r n day = .ok (isoText d)) ∧
        ∀ (d : Date) (n : Int64), Plain d → Plain (d.shift (7 * n.toInt)) →
          ∃ r, add host (isoText d) n week = .ok r ∧ r = isoText (d.shift (7 * n.toInt)) ∧
            diff host r (isoText d) day = .ok (7 * n) ∧ diff host r (isoText d) week = .ok n ∧
            sub host r n week = .ok (isoText d) := by
  refine ⟨fun d hd => daysFromCivil_date d hd.1, fun day week hday hweek => ⟨?_, ?_, ?_, ?_⟩⟩
  · intro d hd hnext
    rw [diff_days hd hnext hday, Date.number_next, add_sub_cancel_left]
    rfl
  · intro a b c ha hb hc
    refine ⟨_, _, diff_days hb ha hday, diff_days hc hb hday, ?_, ?_⟩
    · rw [diff_days hc ha hday, ← Int64.ofInt_add]
      congr 2
      omega
    · rw [diff_days ha hb hday, ← Int64.ofInt_neg]
      congr 2
      omega
  · intro d n hd hr
    obtain ⟨hlow, hhigh, hnumber⟩ := shift_range hd hr
    have hdd := day_lt d
    have hrd := day_lt (d.shift n.toInt)
    have hn : int32 n.toInt = n.toInt := int32_eq (by omega)
    refine ⟨_, ?_, rfl, ?_, ?_⟩
    · refine shifted_days hhost hd hr hday ?_
      rw [hn, int32_eq (by omega), hnumber]
      omega
    · rw [diff_days hd hr hday, hnumber, add_sub_cancel_left, Int64.ofInt_toInt]
    · refine shifted_days hhost hr hd hday ?_
      rw [hn, int32_eq (by omega), hnumber]
      omega
  · intro d n hd hr
    obtain ⟨hlow, hhigh, hnumber⟩ := shift_range hd hr
    have hdd := day_lt d
    have hrd := day_lt (d.shift (7 * n.toInt))
    have hn : int32 (int32 n.toInt * 7) = n.toInt * 7 := by
      rw [int32_eq (i := n.toInt) (by omega), int32_eq (by omega)]
    refine ⟨_, ?_, rfl, ?_, ?_, ?_⟩
    · refine shifted_weeks hhost hd hr hweek ?_
      rw [hn, int32_eq (by omega), hnumber]
      omega
    · rw [diff_days hd hr hday, hnumber, add_sub_cancel_left, Int64.ofInt_mul,
        Int64.ofInt_toInt]
      rfl
    · rw [diff_weeks hd hr hweek, hnumber, add_sub_cancel_left,
        Int.mul_tdiv_cancel_left _ (by decide), Int64.ofInt_toInt]
    · refine shifted_weeks hhost hr hd hweek ?_
      rw [hn, int32_eq (by omega), hnumber]
      omega

end Correct

theorem january : 1 ≤ 1 ∧ 1 ≤ 12 := by decide

/-- A host in UTC. -/
def utc : Host where
  mktime t :=
    let secs := t.hour * 3600 + t.min * 60 + t.sec
    let d := t.first.shift (t.mday - 1 + secs / 86400)
    let rest := secs % 86400
    ((d.number - 719163) * 86400 + rest,
      { year := d.year - 1900, mon := d.month - 1, mday := d.day
        hour := rest / 3600, min := rest % 3600 / 60, sec := rest % 60, isdst := 0 })
  localtime ts :=
    let d := (Date.first 1970 1 january).shift (ts / 86400)
    let rest := ts % 86400
    { year := d.year - 1900, mon := d.month - 1, mday := d.day
      hour := rest / 3600, min := rest % 3600 / 60, sec := rest % 60, isdst := 0 }

theorem normalises_utc : Normalises utc := by
  intro t d hhour hmin hsec _ _ hnumber
  have hshift : t.first.shift (t.mday - 1 + (t.hour * 3600 + t.min * 60 + t.sec) / 86400) = d := by
    refine Date.shift_of_number ?_
    rw [hnumber, hhour, hmin, hsec]
    omega
  simp only [utc, hshift, Int.sub_add_cancel, and_self]

/-- Two days after the 28th of February of a leap year. -/
theorem calendar_correct_leap :
    add utc (ascii "2024-02-28") 2 (ascii "days") = .ok (ascii "2024-03-01") ∧
      diff utc (ascii "2024-03-01") (ascii "2024-02-28") (ascii "days") = .ok 2 ∧
      sub utc (ascii "2024-03-01") 2 (ascii "days") = .ok (ascii "2024-02-28") := by
  let d : Date := ⟨2024, 2, 28, by decide, by decide⟩
  have htext : isoText d = ascii "2024-02-28" := by decide +kernel
  have htext' : isoText (d.shift 2) = ascii "2024-03-01" := by decide +kernel
  obtain ⟨r, hadd, hr, hdiff, hsub⟩ :=
    ((calendar_correct utc normalises_utc).2 (ascii "days") (ascii "weeks") rfl rfl).2.2.1 d 2
      ⟨by decide, by decide⟩ ⟨by decide, by decide⟩
  obtain rfl : r = ascii "2024-03-01" := hr.trans htext'
  rw [htext] at hadd hdiff hsub
  exact ⟨hadd, hdiff, hsub⟩

end Dates

end Look
