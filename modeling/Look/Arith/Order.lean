/-
The laws of `==`, `<`, `<=` and `<=>`.

Two integers are compared as integers and an integer with a float as floats.  The conversion
rounds integers beyond 2^53, and it keeps their order, so that most laws hold of all numbers.
What may fail is the transitivity of `==`, and with it the strict weak order that `std::sort`
asks of the comparator of `array::sort`: two different integers that round to one float are both
equal to that float.  `comparison_laws` says that nothing else goes wrong.
-/
import Look.Arith.Ieee

namespace Look

namespace Value

/-- An INT or a FLOAT that is not NaN. -/
def isOrdered : Value → Bool
  | .int _ => true
  | .float d => !Binary64.isNaN d.bits
  | _ => false

def isText : Value → Bool
  | .string _ => true
  | _ => false

section Laws

variable [DoubleOps] (P : Value → Prop)

/-- `<` gives true. -/
def Less (x y : Value) : Prop := x.lt y = .ok true

/-- Exactly one of three holds. -/
def ExactlyOne (a b c : Prop) : Prop := (a ∧ ¬b ∧ ¬c) ∨ (¬a ∧ b ∧ ¬c) ∨ (¬a ∧ ¬b ∧ c)

/-- The laws that hold in every set of numbers. -/
structure ComparisonLaws : Prop where
  refl : ∀ x, P x → x.eq x = true
  symm : ∀ x y, P x → P y → x.eq y = true → y.eq x = true
  compares : ∀ x y, P x → P y → x.lt y = .ok true ∨ x.lt y = .ok false
  one : ∀ x y, P x → P y → ExactlyOne (x.Less y) (x.eq y = true) (y.Less x)
  trans : ∀ x y z, P x → P y → P z → x.Less y → y.Less z → x.Less z
  le : ∀ x y, P x → P y → (x.le y = .ok true ↔ x.Less y ∨ x.eq y = true)
  less : ∀ x y, P x → P y → x.Less y → x.spaceship y = .ok (.int (-1))
  equal : ∀ x y, P x → P y → x.eq y = true → x.spaceship y = .ok (.int 0)
  greater : ∀ x y, P x → P y → y.Less x → x.spaceship y = .ok (.int 1)

def EqTrans : Prop :=
  ∀ x y z, P x → P y → P z → x.eq y = true → y.eq z = true → x.eq z = true

/-- What `std::sort` needs of its comparator on these elements. -/
structure StrictWeakOrder : Prop where
  irrefl : ∀ x, P x → ¬x.Less x
  trans : ∀ x y z, P x → P y → P z → x.Less y → y.Less z → x.Less z
  incomparable : ∀ x y z, P x → P y → P z →
    (¬x.Less y ∧ ¬y.Less x) → (¬y.Less z ∧ ¬z.Less y) → (¬x.Less z ∧ ¬z.Less x)

/-- A float to which two different integers round. -/
def Clash : Prop :=
  ∃ a b d, P (.int a) ∧ P (.int b) ∧ P (.float d) ∧ a ≠ b ∧
    DoubleOps.eq (DoubleOps.ofInt64 a) d = true ∧ DoubleOps.eq (DoubleOps.ofInt64 b) d = true

end Laws

/-! ## What the operators compare -/

/-- The value of a number as a float, in units of 2^-1074. -/
def scaledOf : Value → Int
  | .int i => Binary64.scaled (Binary64.ofInt i.toInt)
  | .float d => Binary64.scaled d.bits
  | _ => 0

/-- Two integers themselves, or two numbers as floats. -/
def Below : Value → Value → Prop
  | .int a, .int b => a.toInt < b.toInt
  | x, y => x.scaledOf < y.scaledOf

def Meets : Value → Value → Prop
  | .int a, .int b => a.toInt = b.toInt
  | x, y => x.scaledOf = y.scaledOf

theorem scaledOf_mono {a b : Int64} (h : a.toInt ≤ b.toInt) :
    (int a).scaledOf ≤ (int b).scaledOf :=
  Binary64.scaled_ofInt_mono h

/-- Two integers are compared exactly. -/
def bothInt : Value → Value → Bool
  | .int _, .int _ => true
  | _, _ => false

section Numbers

variable {P : Value → Prop} {x y z : Value} {b : Bool}

theorem ok_iff : (Except.ok b : Except Fault Bool) = .ok true ↔ b = true := by
  cases b <;> simp

theorem isNumber_of_isOrdered (hx : x.isOrdered) : x.isNumber = true := by
  cases x <;> first | rfl | cases hx

theorem exists_int (h : bothInt x y = true) : ∃ a b, x = .int a ∧ y = .int b := by
  cases x with
  | int a =>
    cases y with
    | int b => exact ⟨a, b, rfl, rfl⟩
    | _ => cases h
  | _ => cases h

theorem int_or_float (hx : x.isNumber) : (∃ a, x = .int a) ∨ ∃ d, x = .float d := by
  cases x with
  | int a => exact Or.inl ⟨a, rfl⟩
  | float d => exact Or.inr ⟨d, rfl⟩
  | _ => cases hx

theorem eq_floats [DoubleOps] (h : bothInt x y = false) (hx : x.isNumber) (hy : y.isNumber) :
    x.eq y = DoubleOps.eq x.toFloat y.toFloat := by
  rcases int_or_float hx with ⟨a, rfl⟩ | ⟨c, rfl⟩ <;> rcases int_or_float hy with ⟨b, rfl⟩ | ⟨d, rfl⟩
  · cases h
  · rfl
  · rfl
  · rfl

theorem compare_floats [DoubleOps] {f : Int64 → Int64 → Bool} {g : Double → Double → Bool}
    {k : String → String → Bool} (h : bothInt x y = false) (hx : x.isNumber) (hy : y.isNumber) :
    compare f g k x y = .ok (g x.toFloat y.toFloat) := by
  rcases int_or_float hx with ⟨a, rfl⟩ | ⟨c, rfl⟩ <;> rcases int_or_float hy with ⟨b, rfl⟩ | ⟨d, rfl⟩
  · cases h
  · rfl
  · rfl
  · rfl

theorem lt_floats [DoubleOps] (h : bothInt x y = false) (hx : x.isNumber) (hy : y.isNumber) :
    x.lt y = .ok (DoubleOps.lt x.toFloat y.toFloat) := compare_floats h hx hy

theorem le_floats [DoubleOps] (h : bothInt x y = false) (hx : x.isNumber) (hy : y.isNumber) :
    x.le y = .ok (DoubleOps.le x.toFloat y.toFloat) := compare_floats h hx hy

theorem spaceship_of_eq [DoubleOps] (h : x.eq y = true) : x.spaceship y = .ok (.int 0) := by
  rw [spaceship, if_pos h]
  rfl

theorem spaceship_of_ne [DoubleOps] (h : ¬x.eq y = true) (hlt : x.lt y = .ok b) :
    x.spaceship y = .ok (.int (if b then -1 else 1)) := by
  rw [spaceship, if_neg h, hlt]
  rfl

theorem meets_floats (h : bothInt x y = false) : x.Meets y ↔ x.scaledOf = y.scaledOf := by
  cases x with
  | int a =>
    cases y with
    | int b => cases h
    | _ => exact .rfl
  | _ => exact .rfl

theorem below_floats (h : bothInt x y = false) : x.Below y ↔ x.scaledOf < y.scaledOf := by
  cases x with
  | int a =>
    cases y with
    | int b => cases h
    | _ => exact .rfl
  | _ => exact .rfl

section Ieee

variable {lib : DoubleOps}

theorem isNaN_toFloat (hx : x.isOrdered) : Binary64.isNaN (@toFloat (.ieee lib) x).bits = false := by
  cases x with
  | int i => exact Binary64.isNaN_ofInt i.toInt
  | float d => exact Bool.not_eq_true' _ ▸ hx
  | _ => cases hx

theorem scaled_toFloat (hx : x.isOrdered) :
    Binary64.scaled (@toFloat (.ieee lib) x).bits = x.scaledOf := by
  cases x with
  | int i => rfl
  | float d => rfl
  | _ => cases hx

theorem eq_iff_meets (hx : x.isOrdered) (hy : y.isOrdered) :
    @eq (.ieee lib) x y = true ↔ x.Meets y := by
  cases h : bothInt x y with
  | true =>
    obtain ⟨a, b, rfl, rfl⟩ := exists_int h
    exact decide_eq_true_iff.trans Int64.toInt_inj.symm
  | false =>
    rw [@eq_floats _ _ (.ieee lib) h (isNumber_of_isOrdered hx) (isNumber_of_isOrdered hy),
      DoubleOps.ieee_eq, Binary64.eq_iff (isNaN_toFloat hx) (isNaN_toFloat hy),
      scaled_toFloat hx, scaled_toFloat hy, meets_floats h]

theorem lt_iff_below (hx : x.isOrdered) (hy : y.isOrdered) :
    @lt (.ieee lib) x y = .ok true ↔ x.Below y := by
  cases h : bothInt x y with
  | true =>
    obtain ⟨a, b, rfl, rfl⟩ := exists_int h
    exact ok_iff.trans (decide_eq_true_iff.trans Int64.lt_iff_toInt_lt)
  | false =>
    rw [@lt_floats _ _ (.ieee lib) h (isNumber_of_isOrdered hx) (isNumber_of_isOrdered hy),
      ok_iff, DoubleOps.ieee_lt, Binary64.lt_iff (isNaN_toFloat hx) (isNaN_toFloat hy),
      scaled_toFloat hx, scaled_toFloat hy,
      below_floats h]

theorem le_iff (hx : x.isOrdered) (hy : y.isOrdered) :
    @le (.ieee lib) x y = .ok true ↔ x.Below y ∨ x.Meets y := by
  cases h : bothInt x y with
  | true =>
    obtain ⟨a, b, rfl, rfl⟩ := exists_int h
    exact (ok_iff.trans (decide_eq_true_iff.trans Int64.le_iff_toInt_le)).trans
      Int.le_iff_lt_or_eq
  | false =>
    rw [@le_floats _ _ (.ieee lib) h (isNumber_of_isOrdered hx) (isNumber_of_isOrdered hy),
      ok_iff, DoubleOps.ieee_le, Binary64.le_iff (isNaN_toFloat hx) (isNaN_toFloat hy),
      scaled_toFloat hx, scaled_toFloat hy,
      below_floats h, meets_floats h, Int.le_iff_lt_or_eq]

theorem lt_answers (hx : x.isOrdered) (hy : y.isOrdered) :
    @lt (.ieee lib) x y = .ok true ∨ @lt (.ieee lib) x y = .ok false := by
  obtain ⟨b, hb⟩ : ∃ b, @lt (.ieee lib) x y = .ok b := by
    cases h : bothInt x y with
    | true =>
      obtain ⟨a, b, rfl, rfl⟩ := exists_int h
      exact ⟨_, rfl⟩
    | false =>
      exact ⟨_, @lt_floats _ _ (.ieee lib) h (isNumber_of_isOrdered hx) (isNumber_of_isOrdered hy)⟩
  cases b with
  | true => exact .inl hb
  | false => exact .inr hb

end Ieee

/-! ## The order of the numbers -/

theorem meets_self : x.Meets x := by
  cases x <;> rfl

theorem meets_symm (h : x.Meets y) : y.Meets x := by
  cases x <;> cases y <;> exact Eq.symm h

theorem exactlyOne_below (x y : Value) : ExactlyOne (x.Below y) (x.Meets y) (y.Below x) := by
  have hint {i j : Int} : ExactlyOne (i < j) (i = j) (j < i) := by
    rw [ExactlyOne]
    omega
  cases x <;> cases y <;> exact hint

theorem scaledOf_le (h : x.Below y) : x.scaledOf ≤ y.scaledOf := by
  cases hint : bothInt x y with
  | true =>
    obtain ⟨a, b, rfl, rfl⟩ := exists_int hint
    exact scaledOf_mono (Int.le_of_lt h)
  | false => exact Int.le_of_lt ((below_floats hint).mp h)

theorem below_of_scaledOf (h : x.scaledOf < y.scaledOf) : x.Below y := by
  cases hint : bothInt x y with
  | true =>
    obtain ⟨a, b, rfl, rfl⟩ := exists_int hint
    by_contra hle
    exact absurd (scaledOf_mono (Int.not_lt.mp hle)) (Int.not_le.mpr h)
  | false => exact (below_floats hint).mpr h

theorem scaledOf_of_meets (h : x.Meets y) : x.scaledOf = y.scaledOf := by
  cases hint : bothInt x y with
  | true =>
    obtain ⟨a, b, rfl, rfl⟩ := exists_int hint
    rw [Int64.toInt_inj.mp h]
  | false => exact (meets_floats hint).mp h

/-- A float keeps two integers in order, so that `<` loses nothing on the way through one. -/
theorem below_trans (hxy : x.Below y) (hyz : y.Below z) : x.Below z := by
  have hle := scaledOf_le hxy
  have hle' := scaledOf_le hyz
  cases hint : bothInt x y with
  | false => exact below_of_scaledOf (Int.lt_of_lt_of_le ((below_floats hint).mp hxy) hle')
  | true =>
    cases hint' : bothInt y z with
    | false => exact below_of_scaledOf (Int.lt_of_le_of_lt hle ((below_floats hint').mp hyz))
    | true =>
      obtain ⟨a, b, rfl, rfl⟩ := exists_int hint
      obtain ⟨b', c, hb, rfl⟩ := exists_int hint'
      obtain rfl := Value.int.inj hb
      exact Int.lt_trans hxy hyz

/-- Through a float, two integers may be found equal that are not. -/
theorem meets_trans (hxy : x.Meets y) (hyz : y.Meets z) (h : ¬(bothInt x z ∧ ¬bothInt x y)) :
    x.Meets z := by
  cases hint : bothInt x z with
  | false => exact (meets_floats hint).mpr ((scaledOf_of_meets hxy).trans (scaledOf_of_meets hyz))
  | true =>
    have hxy' : bothInt x y = true := by
      by_contra hne
      exact h ⟨hint, hne⟩
    obtain ⟨a, c, rfl, rfl⟩ := exists_int hint
    obtain ⟨a', b, ha, rfl⟩ := exists_int hxy'
    obtain rfl := Value.int.inj ha
    exact Eq.trans hxy hyz

end Numbers

/-! ## The order of the strings -/

def TextBelow : Value → Value → Prop
  | .string s, .string t => s < t
  | _, _ => False

theorem exists_string {x : Value} (h : x.isText) : ∃ s, x = .string s := by
  cases x <;> first | exact ⟨_, rfl⟩ | cases h

theorem exactlyOne_string (s t : String) : ExactlyOne (s < t) (s = t) (t < s) := by
  by_cases hst : s < t
  · exact .inl ⟨hst, fun h => String.lt_irrefl t (h ▸ hst), String.lt_asymm hst⟩
  · by_cases hts : t < s
    · exact .inr (.inr ⟨hst, fun h => String.lt_irrefl t (h ▸ hts), hts⟩)
    · exact .inr (.inl ⟨hst, String.le_antisymm (String.not_lt.mp hts) (String.not_lt.mp hst), hts⟩)

theorem textBelow_trans {x y z : Value} (hxy : x.TextBelow y) (hyz : y.TextBelow z) :
    x.TextBelow z := by
  cases x <;> cases y <;> first | cases hxy | skip
  cases z <;> first | cases hyz | exact String.lt_trans hxy hyz

/-! ## The laws -/

section Orders

variable [DoubleOps] {P : Value → Prop} {below meets : Value → Value → Prop} {x y : Value}

/-- The operators decide an order and an equality of the values. -/
structure Decides (P : Value → Prop) (below meets : Value → Value → Prop) : Prop where
  eq_iff : ∀ x y, P x → P y → (x.eq y = true ↔ meets x y)
  lt_iff : ∀ x y, P x → P y → (x.lt y = .ok true ↔ below x y)
  le_iff : ∀ x y, P x → P y → (x.le y = .ok true ↔ below x y ∨ meets x y)
  answers : ∀ x y, P x → P y → x.lt y = .ok true ∨ x.lt y = .ok false
  one : ∀ x y, P x → P y → ExactlyOne (below x y) (meets x y) (below y x)
  refl : ∀ x, P x → meets x x
  symm : ∀ x y, meets x y → meets y x
  trans : ∀ x y z, below x y → below y z → below x z

theorem Decides.eq_of_same (h : Decides P below meets) (hx : P x) (hy : P y) :
    (¬x.Less y ∧ ¬y.Less x) ↔ x.eq y = true := by
  rw [Less, Less, h.lt_iff x y hx hy, h.lt_iff y x hy hx, h.eq_iff x y hx hy]
  rcases h.one x y hx hy with ⟨hlt, hne, -⟩ | ⟨hlt, heq, hgt⟩ | ⟨-, hne, hgt⟩
  · exact ⟨fun hno => absurd hlt hno.1, fun heq => absurd heq hne⟩
  · exact ⟨fun _ => heq, fun _ => ⟨hlt, hgt⟩⟩
  · exact ⟨fun hno => absurd hgt hno.2, fun heq => absurd heq hne⟩

theorem Decides.exactlyOne (h : Decides P below meets) (hx : P x) (hy : P y) :
    ExactlyOne (x.Less y) (x.eq y = true) (y.Less x) := by
  rw [Less, Less, h.lt_iff x y hx hy, h.lt_iff y x hy hx, h.eq_iff x y hx hy]
  exact h.one x y hx hy

theorem Decides.spaceship_of_less (h : Decides P below meets) (hx : P x) (hy : P y)
    (hlt : x.Less y) : x.spaceship y = .ok (.int (-1)) := by
  have hne : ¬x.eq y = true := by
    rcases h.exactlyOne hx hy with ⟨-, hne, -⟩ | ⟨hno, -⟩ | ⟨hno, -⟩
    · exact hne
    · exact absurd hlt hno
    · exact absurd hlt hno
  exact spaceship_of_ne hne hlt

theorem Decides.spaceship_of_greater (h : Decides P below meets) (hx : P x) (hy : P y)
    (hgt : y.Less x) : x.spaceship y = .ok (.int 1) := by
  rcases h.exactlyOne hx hy with ⟨-, -, hno⟩ | ⟨-, -, hno⟩ | ⟨hno, hne, -⟩
  · exact absurd hgt hno
  · exact absurd hgt hno
  · exact spaceship_of_ne hne ((h.answers x y hx hy).resolve_left hno)

theorem comparisonLaws_of_decides (h : Decides P below meets) : ComparisonLaws P where
  refl x hx := (h.eq_iff x x hx hx).mpr (h.refl x hx)
  symm x y hx hy heq := (h.eq_iff y x hy hx).mpr (h.symm x y ((h.eq_iff x y hx hy).mp heq))
  compares := h.answers
  one x y hx hy := h.exactlyOne hx hy
  trans x y z hx hy hz hxy hyz := (h.lt_iff x z hx hz).mpr
    (h.trans x y z ((h.lt_iff x y hx hy).mp hxy) ((h.lt_iff y z hy hz).mp hyz))
  le x y hx hy := by
    rw [Less, h.lt_iff x y hx hy, h.eq_iff x y hx hy]
    exact h.le_iff x y hx hy
  less x y hx hy hlt := h.spaceship_of_less hx hy hlt
  equal x y _ _ heq := spaceship_of_eq heq
  greater x y hx hy hgt := h.spaceship_of_greater hx hy hgt

/-- Values that `<` does not separate are equal. -/
theorem strictWeakOrder_iff (h : Decides P below meets) : StrictWeakOrder P ↔ EqTrans P := by
  have hlaws := comparisonLaws_of_decides h
  constructor
  · intro hweak x y z hx hy hz hxy hyz
    rw [← h.eq_of_same hx hy] at hxy
    rw [← h.eq_of_same hy hz] at hyz
    exact (h.eq_of_same hx hz).mp (hweak.incomparable x y z hx hy hz hxy hyz)
  · intro htrans
    refine ⟨?_, hlaws.trans, ?_⟩
    · intro x hx
      exact ((h.eq_of_same hx hx).mpr (hlaws.refl x hx)).1
    · intro x y z hx hy hz hxy hyz
      rw [h.eq_of_same hx hy] at hxy
      rw [h.eq_of_same hy hz] at hyz
      exact (h.eq_of_same hx hz).mpr (htrans x y z hx hy hz hxy hyz)

/-! ## Strings -/

theorem eq_string {s t : String} : eq (.string s) (.string t) = true ↔ s = t :=
  decide_eq_true_iff

theorem lt_string {s t : String} : lt (.string s) (.string t) = .ok true ↔ s < t :=
  ok_iff.trans decide_eq_true_iff

theorem le_string {s t : String} : le (.string s) (.string t) = .ok true ↔ s < t ∨ s = t :=
  ok_iff.trans (by rw [Bool.or_eq_true, decide_eq_true_iff, decide_eq_true_iff, or_comm])

theorem decides_texts (hP : ∀ x, P x → x.isText) : Decides P TextBelow Eq where
  eq_iff x y hx hy := by
    obtain ⟨s, rfl⟩ := exists_string (hP x hx)
    obtain ⟨t, rfl⟩ := exists_string (hP y hy)
    rw [eq_string, Value.string.injEq]
  lt_iff x y hx hy := by
    obtain ⟨s, rfl⟩ := exists_string (hP x hx)
    obtain ⟨t, rfl⟩ := exists_string (hP y hy)
    exact lt_string
  le_iff x y hx hy := by
    obtain ⟨s, rfl⟩ := exists_string (hP x hx)
    obtain ⟨t, rfl⟩ := exists_string (hP y hy)
    rw [le_string, Value.string.injEq]
    rfl
  answers x y hx hy := by
    obtain ⟨s, rfl⟩ := exists_string (hP x hx)
    obtain ⟨t, rfl⟩ := exists_string (hP y hy)
    exact (Bool.eq_false_or_eq_true (decide (s < t))).imp (congrArg _) (congrArg _)
  one x y hx hy := by
    obtain ⟨s, rfl⟩ := exists_string (hP x hx)
    obtain ⟨t, rfl⟩ := exists_string (hP y hy)
    rw [Value.string.injEq]
    exact exactlyOne_string s t
  refl x _ := rfl
  symm x y h := h.symm
  trans x y z := textBelow_trans

end Orders

/-! ## Numbers -/

section Main

variable {lib : DoubleOps} {P : Value → Prop}

variable (lib) in
theorem decides_numbers (hP : ∀ x, P x → x.isOrdered) : @Decides (.ieee lib) P Below Meets := by
  let _ := DoubleOps.ieee lib
  exact {
    eq_iff := fun x y hx hy => eq_iff_meets (hP x hx) (hP y hy)
    lt_iff := fun x y hx hy => lt_iff_below (hP x hx) (hP y hy)
    le_iff := fun x y hx hy => le_iff (hP x hx) (hP y hy)
    answers := fun x y hx hy => lt_answers (hP x hx) (hP y hy)
    one := fun x y _ _ => exactlyOne_below x y
    refl := fun _ _ => meets_self
    symm := fun _ _ => meets_symm
    trans := fun _ _ _ => below_trans }

/-- Equality is transitive unless two integers meet in a float. -/
theorem eqTrans_iff (hP : ∀ x, P x → x.isOrdered) :
    @EqTrans (.ieee lib) P ↔ ¬@Clash (.ieee lib) P := by
  let _ := DoubleOps.ieee lib
  have h := decides_numbers lib hP
  have hmixed : ∀ {a d}, eq (.int a) (.float d) = DoubleOps.eq (DoubleOps.ofInt64 a) d := by
    intro a d
    exact eq_floats rfl rfl rfl
  constructor
  · rintro htrans ⟨a, b, d, ha, hb, hd, hne, had, hbd⟩
    have hdb := (comparisonLaws_of_decides h).symm _ _ hb hd (hmixed.trans hbd)
    exact hne (of_decide_eq_true (htrans _ _ _ ha hd hb (hmixed.trans had) hdb))
  · intro hclash x y z hx hy hz hxy hyz
    rw [h.eq_iff x y hx hy] at hxy
    rw [h.eq_iff y z hy hz] at hyz
    rw [h.eq_iff x z hx hz]
    by_cases hints : bothInt x z ∧ ¬bothInt x y
    · obtain ⟨a, c, rfl, rfl⟩ := exists_int hints.1
      cases y with
      | int b => exact absurd rfl hints.2
      | float d =>
        by_contra hne
        refine hclash ⟨a, c, d, hx, hz, hy, fun hac => hne (hac ▸ rfl), ?_, ?_⟩
        · exact hmixed.symm.trans ((h.eq_iff _ _ hx hy).mpr hxy)
        · exact hmixed.symm.trans ((h.eq_iff _ _ hz hy).mpr (meets_symm hyz))
      | _ => cases hP _ hy
    · exact meets_trans hxy hyz hints

end Main

/-- Among numbers all laws hold but one: `==` is transitive, and `<` a strict weak order, when no
float equals two different integers.  Among strings all hold. -/
theorem comparison_laws (lib : DoubleOps) (P : Value → Prop) :
    letI := DoubleOps.ieee lib
    ((∀ x, P x → x.isOrdered) →
      ComparisonLaws P ∧ (EqTrans P ↔ ¬Clash P) ∧ (StrictWeakOrder P ↔ ¬Clash P)) ∧
    ((∀ x, P x → x.isText) → ComparisonLaws P ∧ EqTrans P ∧ StrictWeakOrder P) := by
  let _ := DoubleOps.ieee lib
  constructor
  · intro hP
    have h := decides_numbers lib hP
    exact ⟨comparisonLaws_of_decides h, eqTrans_iff hP,
      (strictWeakOrder_iff h).trans (eqTrans_iff hP)⟩
  · intro hP
    have h := decides_texts hP
    have htrans : EqTrans P := by
      intro x y z hx hy hz hxy hyz
      rw [h.eq_iff x y hx hy] at hxy
      rw [h.eq_iff x z hx hz, hxy]
      exact (h.eq_iff y z hy hz).mp hyz
    exact ⟨comparisonLaws_of_decides h, htrans, (strictWeakOrder_iff h).mpr htrans⟩

/-- 2^53, 2^53 + 1 and the float between them. -/
theorem comparison_not_transitive :
    letI := DoubleOps.ieee .host
    ¬EqTrans (fun x => x.isOrdered = true) ∧ ¬StrictWeakOrder (fun x => x.isOrdered = true) := by
  let _ := DoubleOps.ieee .host
  have htrans : ¬EqTrans (fun x => x.isOrdered = true) := by
    intro h
    have hab := h (.int 9007199254740992) (.float ⟨0x4340000000000000⟩) (.int 9007199254740993)
      rfl (by decide +kernel) rfl (by decide +kernel) (by decide +kernel)
    exact absurd hab (by decide +kernel)
  exact ⟨htrans, fun h => htrans ((strictWeakOrder_iff (decides_numbers _ fun _ hx => hx)).mp h)⟩

theorem comparison_laws_small :
    letI := DoubleOps.ieee .host
    StrictWeakOrder fun x => x = .int 1 ∨ x = .float ⟨0x3ff0000000000000⟩ := by
  refine ((comparison_laws .host _).1 ?_).2.2.mpr ?_
  · rintro x (rfl | rfl) <;> decide +kernel
  · rintro ⟨a, b, d, ha, hb, -, hne, -⟩
    simp only [Value.int.injEq, reduceCtorEq, or_false] at ha hb
    exact hne (ha.trans hb.symm)

end Value

end Look
