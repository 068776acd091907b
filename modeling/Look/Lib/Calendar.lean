/-
The proleptic Gregorian calendar.

A `Date` is a date that exists.  Its `number` counts the days from the first of January of the year
one, which is day 1; the next date has the next number, every number is that of a date, and no two
dates have the same.
-/
import Mathlib.Algebra.Order.Group.Int

namespace Look

namespace Calendar

def isLeap (y : Int) : Bool := y % 4 = 0 && (y % 100 ≠ 0 || y % 400 = 0)

def monthLength (leap : Bool) : Nat → Nat
  | 2 => if leap then 29 else 28
  | 4 | 6 | 9 | 11 => 30
  | _ => 31

structure Date where
  year : Int
  month : Nat
  day : Nat
  monthOk : 1 ≤ month ∧ month ≤ 12
  dayOk : 1 ≤ day ∧ day ≤ monthLength (isLeap year) month
deriving DecidableEq

/-- The days of a year before a month. -/
def daysBefore (leap : Bool) : Nat → Nat
  | 0 | 1 => 0
  | m + 2 => daysBefore leap (m + 1) + monthLength leap (m + 1)

/-- The days before a year. -/
def yearStart (y : Int) : Int := 365 * (y - 1) + (y - 1) / 4 - (y - 1) / 100 + (y - 1) / 400

def Date.number (d : Date) : Int :=
  yearStart d.year + daysBefore (isLeap d.year) d.month + d.day

/-! ## Lengths -/

theorem monthLength_range (leap : Bool) (m : Nat) :
    28 ≤ monthLength leap m ∧ monthLength leap m ≤ 31 := by
  rw [monthLength.eq_def]
  split <;> cases leap <;> decide

theorem daysBefore_succ (leap : Bool) {m : Nat} (h : 1 ≤ m) :
    daysBefore leap (m + 1) = daysBefore leap m + monthLength leap m := by
  obtain ⟨k, rfl⟩ := Nat.exists_eq_add_of_le' h
  rfl

theorem daysBefore_last (leap : Bool) : daysBefore leap 13 = if leap then 366 else 365 := by
  cases leap <;> rfl

theorem daysBefore_mono (leap : Bool) {m m' : Nat} (hm : 1 ≤ m) (h : m ≤ m') :
    daysBefore leap m ≤ daysBefore leap m' := by
  induction m', h using Nat.le_induction with
  | base => exact Nat.le_refl _
  | succ k hk ih =>
    rw [daysBefore_succ leap (Nat.le_trans hm hk)]
    exact Nat.le_trans ih (Nat.le_add_right _ _)

theorem yearStart_succ (y : Int) :
    yearStart (y + 1) = yearStart y + daysBefore (isLeap y) 13 := by
  rw [daysBefore_last, yearStart, yearStart]
  by_cases h : isLeap y = true
  · rw [if_pos h]
    simp only [isLeap, Bool.and_eq_true, Bool.or_eq_true, decide_eq_true_eq] at h
    omega
  · rw [if_neg h]
    simp only [isLeap, Bool.and_eq_true, Bool.or_eq_true, decide_eq_true_eq] at h
    omega

theorem yearStart_mono {y y' : Int} (h : y ≤ y') : yearStart y ≤ yearStart y' := by
  induction y', h using Int.leInduction with
  | base => exact Int.le_refl _
  | succ z _ ih =>
    rw [yearStart_succ]
    omega

namespace Date

variable {d e : Date}

theorem ext' (hy : d.year = e.year) (hm : d.month = e.month) (hd : d.day = e.day) : d = e := by
  cases d
  cases e
  cases hy
  cases hm
  cases hd
  rfl

/-- A date is in its month. -/
theorem number_month (d : Date) :
    yearStart d.year + daysBefore (isLeap d.year) d.month < d.number ∧
      d.number ≤ yearStart d.year + daysBefore (isLeap d.year) (d.month + 1) := by
  have hday := d.dayOk
  rw [daysBefore_succ _ d.monthOk.1, number]
  omega

/-- A date is in its year. -/
theorem number_year (d : Date) :
    yearStart d.year < d.number ∧ d.number ≤ yearStart (d.year + 1) := by
  have hmonth := d.number_month
  have hlast : daysBefore (isLeap d.year) (d.month + 1) ≤ daysBefore (isLeap d.year) 13 :=
    daysBefore_mono _ (Nat.le_add_left 1 d.month) (Nat.succ_le_succ d.monthOk.2)
  rw [yearStart_succ]
  omega

theorem year_le_of_number (h : d.number ≤ e.number) : d.year ≤ e.year := by
  by_contra hyear
  have hmono := yearStart_mono (Int.add_one_le_iff.mpr (Int.not_le.mp hyear))
  have hd := d.number_year
  have he := e.number_year
  omega

/-- A date is known from its number. -/
theorem number_inj (h : d.number = e.number) : d = e := by
  have hyear : d.year = e.year :=
    Int.le_antisymm (year_le_of_number h.le) (year_le_of_number h.ge)
  have hd := d.number_month
  have he := e.number_month
  rw [h, hyear] at hd
  have hmonth : d.month = e.month := by
    rcases Nat.lt_trichotomy d.month e.month with hlt | heq | hlt
    · have := daysBefore_mono (isLeap e.year) (Nat.le_add_left 1 d.month) hlt
      omega
    · exact heq
    · have := daysBefore_mono (isLeap e.year) (Nat.le_add_left 1 e.month) hlt
      omega
  refine ext' hyear hmonth ?_
  rw [number, number, hyear, hmonth] at h
  omega

/-! ## The next date -/

/-- The first day of a month. -/
def first (y : Int) (m : Nat) (h : 1 ≤ m ∧ m ≤ 12) : Date :=
  ⟨y, m, 1, h, Nat.le_refl 1, Nat.le_trans (by decide) (monthLength_range _ _).1⟩

def next (d : Date) : Date :=
  if h : d.day < monthLength (isLeap d.year) d.month then
    ⟨d.year, d.month, d.day + 1, d.monthOk, Nat.le_add_left 1 _, h⟩
  else if h : d.month < 12 then first d.year (d.month + 1) ⟨Nat.le_add_left 1 _, h⟩
  else first (d.year + 1) 1 ⟨Nat.le_refl 1, by decide⟩

theorem number_first (y : Int) (m : Nat) (h : 1 ≤ m ∧ m ≤ 12) :
    (first y m h).number = yearStart y + daysBefore (isLeap y) m + 1 := rfl

theorem number_next (d : Date) : d.next.number = d.number + 1 := by
  have hday := d.dayOk.2
  have hmonth := d.monthOk
  rw [next]
  split
  · rw [number, number]
    push_cast
    omega
  · rename_i hlast
    split
    · rw [number_first, number, daysBefore_succ _ hmonth.1]
      omega
    · rename_i hdec
      have hmonth' : d.month = 12 := by omega
      have hyear := daysBefore_succ (isLeap d.year) (m := 12) (by decide)
      rw [number_first, number, yearStart_succ, hyear]
      rw [hmonth'] at hlast hday ⊢
      have hzero : daysBefore (isLeap (d.year + 1)) 1 = 0 := rfl
      omega

/-- The date before. -/
def prev (d : Date) : Date :=
  if h : 1 < d.day then
    ⟨d.year, d.month, d.day - 1, d.monthOk, Nat.le_sub_one_of_lt h,
      Nat.le_trans (Nat.sub_le _ _) d.dayOk.2⟩
  else if h : 1 < d.month then
    ⟨d.year, d.month - 1, monthLength (isLeap d.year) (d.month - 1),
      ⟨Nat.le_sub_one_of_lt h, Nat.le_trans (Nat.sub_le _ _) d.monthOk.2⟩,
      Nat.le_trans (by decide) (monthLength_range _ _).1, Nat.le_refl _⟩
  else ⟨d.year - 1, 12, 31, by decide, by decide, Nat.le_refl _⟩

theorem number_prev (d : Date) : d.prev.number = d.number - 1 := by
  have hday := d.dayOk
  have hmonth := d.monthOk
  rw [prev]
  split
  · rw [number, number]
    dsimp only
    omega
  · rename_i hfirst
    split
    · rename_i hlate
      have hlen := daysBefore_succ (isLeap d.year) (m := d.month - 1) (by omega)
      rw [Nat.sub_add_cancel hmonth.1] at hlen
      rw [number, number]
      dsimp only
      omega
    · rename_i hjan
      have hmonth' : d.month = 1 := by omega
      have hyear := yearStart_succ (d.year - 1)
      have hlen := daysBefore_succ (isLeap (d.year - 1)) (m := 12) (by decide)
      rw [Int.sub_add_cancel] at hyear
      rw [number, number, hyear, hlen, hmonth']
      dsimp only
      have hzero : daysBefore (isLeap d.year) 1 = 0 := rfl
      have hlast : monthLength (isLeap (d.year - 1)) 12 = 31 := rfl
      omega

/-- So many days later. -/
def shift (d : Date) : Int → Date
  | .ofNat k => next^[k] d
  | .negSucc k => prev^[k + 1] d

theorem number_shift (d : Date) (n : Int) : (d.shift n).number = d.number + n := by
  have hnext : ∀ (k : Nat) (e : Date), (next^[k] e).number = e.number + k := by
    intro k
    induction k with
    | zero => exact fun e => (Int.add_zero _).symm
    | succ k ih =>
      intro e
      rw [Function.iterate_succ_apply, ih, number_next]
      omega
  have hprev : ∀ (k : Nat) (e : Date), (prev^[k] e).number = e.number - k := by
    intro k
    induction k with
    | zero => exact fun e => (Int.sub_zero _).symm
    | succ k ih =>
      intro e
      rw [Function.iterate_succ_apply, ih, number_prev]
      omega
  cases n with
  | ofNat k => exact hnext k d
  | negSucc k =>
    rw [shift, hprev]
    omega

theorem shift_of_number {n : Int} (h : e.number = d.number + n) : d.shift n = e :=
  number_inj ((number_shift d n).trans h.symm)

end Date

end Calendar

end Look
