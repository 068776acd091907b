/-
Forms in a query or an urlencoded body: `url_decode` and `parse_query`.

`url_decode` reads the two bytes behind a `%` with `stoi`, which takes blanks, a sign and a single
digit too.  On an encoded form the two bytes are digits, so `parse_query` gives the fields back;
elsewhere it differs from a decoder that wants two digits (`urlDecode_eq_iff`).
-/
import Look.Web.Routes

namespace Look

namespace Form

open Http (Bytes sp)
open Route (hexValue stoiPair)

def percent : UInt8 := 37
def plusSign : UInt8 := 43
def amp : UInt8 := 38
def equals : UInt8 := 61

/-- What `+` stands for, and every other byte. -/
def plain (plusIsSpace : Bool) (b : UInt8) : UInt8 := if b = plusSign ∧ plusIsSpace then sp else b

/-- `WebContext::url_decode`. -/
def urlDecode (plusIsSpace : Bool) : Bytes → Bytes
  | b :: x :: y :: rest =>
    match if b = percent then stoiPair x y else none with
    | some c => c :: urlDecode plusIsSpace rest
    | none => plain plusIsSpace b :: urlDecode plusIsSpace (x :: y :: rest)
  | short => short.map (plain plusIsSpace)

/-- The pieces of a text as `getline` reads them: behind a separator at the end there is none. -/
def getlines (sep : UInt8) (s : Bytes) : List Bytes :=
  if (s.splitOn sep).getLast? = some [] then (s.splitOn sep).dropLast else s.splitOn sep

/-- A turn of the loop in `parse_query`. -/
def parsePair (pair : Bytes) : Bytes × Bytes :=
  match breakOn [equals] pair with
  | none => (urlDecode true pair, [])
  | some (name, value) => (urlDecode true name, urlDecode true value)

/-- `WebContext::parse_query`. -/
def parseQuery (qs : Bytes) : List (Bytes × Bytes) :=
  AssocList.upsertAll ((getlines amp qs).map parsePair)

/-! ## Two hexadecimal digits -/

/-- The byte that two digits stand for. -/
def digitPair (x y : UInt8) : Option UInt8 :=
  (hexValue x).bind fun h => (hexValue y).map fun l => 16 * h + l

/-- A decoder that takes a `%` for itself unless two digits follow it. -/
def strictDecode (plusIsSpace : Bool) : Bytes → Bytes
  | b :: x :: y :: rest =>
    match if b = percent then digitPair x y else none with
    | some c => c :: strictDecode plusIsSpace rest
    | none => plain plusIsSpace b :: strictDecode plusIsSpace (x :: y :: rest)
  | short => short.map (plain plusIsSpace)

/-- A byte that is no digit. -/
theorem ne_of_hexValue {b c : UInt8} (hb : (hexValue b).isSome = true) (hc : hexValue c = none) :
    b ≠ c := by
  rintro rfl
  rw [hc] at hb
  cases hb

theorem hexValue_digit (b : UInt8) (hb : (hexValue b).isSome = true) :
    b ≠ percent ∧ b ≠ plusSign :=
  ⟨ne_of_hexValue hb rfl, ne_of_hexValue hb rfl⟩

theorem hexValue_lt (b : UInt8) : ∀ v ∈ hexValue b, v < 16 := by
  intro v hv
  have hvalue : hexValue b = some v := Option.mem_def.mp hv
  rw [UInt8.lt_iff_toNat_lt]
  simp only [hexValue, UInt8.le_iff_toNat_le] at hvalue
  split at hvalue
  · cases hvalue
    simp only [UInt8.toNat_sub, UInt8.reduceToNat] at *
    omega
  · split at hvalue
    · cases hvalue
      simp only [UInt8.toNat_sub, UInt8.reduceToNat] at *
      omega
    · split at hvalue
      · cases hvalue
        simp only [UInt8.toNat_sub, UInt8.reduceToNat] at *
        omega
      · cases hvalue

theorem small_ne_percent (v : UInt8) (hv : v < 16) : v ≠ percent ∧ 0 - v ≠ percent := by
  constructor
  · rintro rfl
    exact absurd hv (by decide)
  · intro h
    have hlt : v.toNat < 16 := UInt8.lt_iff_toNat_lt.mp hv
    have hnat := congrArg UInt8.toNat h
    rw [UInt8.toNat_sub] at hnat
    simp only [percent, UInt8.reduceToNat] at hnat
    omega

theorem stoiPair_of_digitPair {x y c : UInt8} (h : digitPair x y = some c) :
    stoiPair x y = some c := by
  obtain ⟨v, hv, hmap⟩ := Option.bind_eq_some_iff.mp h
  obtain ⟨w, hw, rfl⟩ := Option.map_eq_some_iff.mp hmap
  rw [stoiPair, hv]
  dsimp only
  rw [hw]

/-- What `stoi` reads from other bytes is not the code of a `%`. -/
theorem stoiPair_ne_percent {x y c : UInt8} (h : stoiPair x y = some c)
    (hno : digitPair x y = none) : c ≠ percent := by
  rw [stoiPair] at h
  cases hx : hexValue x with
  | some v =>
    cases hy : hexValue y with
    | some w =>
      rw [digitPair, hx, Option.bind_some, hy] at hno
      cases hno
    | none =>
      rw [hx, hy] at h
      cases h
      exact (small_ne_percent v (hexValue_lt x v hx)).1
  | none =>
    rw [hx] at h
    dsimp only at h
    split at h
    · exact (small_ne_percent c (hexValue_lt y c h)).1
    · split at h
      · obtain ⟨w, hw, rfl⟩ := Option.map_eq_some_iff.mp h
        exact (small_ne_percent w (hexValue_lt y w hw)).2
      · cases h

/-- No `%` is followed by two bytes that `stoi` reads and that are not two digits. -/
def Clean (s : Bytes) : Prop :=
  ∀ p x y rest, s = p ++ percent :: x :: y :: rest → (stoiPair x y).isSome = true →
    (digitPair x y).isSome = true

theorem clean_ne {b : UInt8} (hb : b ≠ percent) (s : Bytes) : Clean (b :: s) ↔ Clean s := by
  constructor
  · exact fun h p x y rest hs => h (b :: p) x y rest (by rw [hs]; rfl)
  · intro h p x y rest hs
    cases p with
    | nil => exact absurd (List.cons.inj hs).1 hb
    | cons a p =>
      cases hs
      exact h p x y rest rfl

theorem clean_percent (x y : UInt8) (rest : Bytes) :
    Clean (percent :: x :: y :: rest) ↔
      ((stoiPair x y).isSome = true → (digitPair x y).isSome = true) ∧ Clean (x :: y :: rest) := by
  constructor
  · exact fun h => ⟨h [] x y rest rfl, fun p x' y' rest' hs => h (percent :: p) x' y' rest' (by
      rw [hs]
      rfl)⟩
  · rintro ⟨hfirst, h⟩ p x' y' rest' hs
    cases p with
    | nil =>
      cases hs
      exact hfirst
    | cons a p => exact h p x' y' rest' (List.cons.inj hs).2

theorem clean_short {s : Bytes} (h : s.length < 3) : Clean s := by
  intro p x y rest hs
  rw [hs] at h
  simp only [List.length_append, List.length_cons] at h
  omega

theorem clean_digits {x y c : UInt8} (h : digitPair x y = some c) (rest : Bytes) :
    Clean (x :: y :: rest) ↔ Clean rest := by
  obtain ⟨v, hv, hmap⟩ := Option.bind_eq_some_iff.mp h
  obtain ⟨w, hw, -⟩ := Option.map_eq_some_iff.mp hmap
  rw [clean_ne (hexValue_digit x (by rw [hv]; rfl)).1,
    clean_ne (hexValue_digit y (by rw [hw]; rfl)).1]

/-- `url_decode` leaves every `%` alone that two digits do not follow, exactly when `stoi` reads
nothing else in the text. -/
theorem urlDecode_eq_iff (plusIsSpace : Bool) (s : Bytes) :
    urlDecode plusIsSpace s = strictDecode plusIsSpace s ↔ Clean s := by
  fun_induction strictDecode plusIsSpace s with
  | case1 b x y rest c hc ih =>
    by_cases hb : b = percent
    · subst hb
      rw [if_pos rfl] at hc
      rw [urlDecode, if_pos rfl, stoiPair_of_digitPair hc, List.cons.injEq, and_iff_right rfl, ih,
        clean_percent, hc, clean_digits hc]
      exact ⟨fun h => ⟨fun _ => rfl, h⟩, fun h => h.2⟩
    · rw [if_neg hb] at hc
      cases hc
  | case2 b x y rest hc ih =>
    by_cases hb : b = percent
    · subst hb
      rw [if_pos rfl] at hc
      rw [urlDecode, if_pos rfl, clean_percent, hc, ← ih]
      have hplain : plain plusIsSpace percent = percent := if_neg fun h => absurd h.1 (by decide)
      cases hstoi : stoiPair x y with
      | none =>
        dsimp only
        rw [List.cons.injEq, and_iff_right rfl]
        exact ⟨fun h => ⟨fun hno => absurd hno Bool.false_ne_true, h⟩, fun h => h.2⟩
      | some c =>
        -- The byte that is read instead is not the `%` of the strict decoder.
        refine iff_of_false (fun h => ?_) fun h => absurd (h.1 rfl) Bool.false_ne_true
        rw [hplain] at h
        exact stoiPair_ne_percent hstoi hc (List.cons.inj h).1
    · rw [urlDecode, if_neg hb, clean_ne hb, ← ih]
      exact ⟨fun h => (List.cons.inj h).2, fun h => congrArg _ h⟩
  | case3 short hshort =>
    match short with
    | [] => exact iff_of_true rfl (clean_short (by decide))
    | [_] => exact iff_of_true rfl (clean_short (by simp))
    | [_, _] => exact iff_of_true rfl (clean_short (by simp))
    | b :: x :: y :: rest => exact absurd rfl (hshort b x y rest)

/-! ## Encoded forms -/

/-- A byte of an encoded text that stands for itself: neither reserved nor a `%` or a `+`. -/
def Literal (reserved : List UInt8) (c : UInt8) : Prop :=
  c ≠ percent ∧ c ≠ plusSign ∧ c ∉ reserved

/-- The ways to write a text. -/
inductive Encodes (reserved : List UInt8) : Bytes → Bytes → Prop
  | nil : Encodes reserved [] []
  | literal {c : UInt8} {s t : Bytes} : Literal reserved c → Encodes reserved s t →
      Encodes reserved (c :: s) (c :: t)
  | plus {s t : Bytes} : Encodes reserved s t → Encodes reserved (sp :: s) (plusSign :: t)
  | digits {c x y : UInt8} {s t : Bytes} : digitPair x y = some c → Encodes reserved s t →
      Encodes reserved (c :: s) (percent :: x :: y :: t)

theorem urlDecode_ne {b : UInt8} (hb : b ≠ percent) (plusIsSpace : Bool) (s : Bytes) :
    urlDecode plusIsSpace (b :: s) = plain plusIsSpace b :: urlDecode plusIsSpace s := by
  match s with
  | [] => rfl
  | [_] => rfl
  | _ :: _ :: _ => rw [urlDecode, if_neg hb]

theorem Encodes.decode {reserved : List UInt8} {s t : Bytes} (h : Encodes reserved s t) :
    urlDecode true t = s := by
  induction h with
  | nil => rfl
  | literal hc _ ih =>
    rw [urlDecode_ne hc.1, ih, plain, if_neg fun h => hc.2.1 h.1]
  | plus _ ih =>
    rw [urlDecode_ne (by decide), ih]
    rfl
  | digits hxy _ ih => rw [urlDecode, if_pos rfl, stoiPair_of_digitPair hxy, ih]

theorem hexValue_notMem (b : UInt8) (hb : (hexValue b).isSome = true) : b ≠ amp ∧ b ≠ equals :=
  ⟨ne_of_hexValue hb rfl, ne_of_hexValue hb rfl⟩

theorem Encodes.notMem {reserved : List UInt8} {s t : Bytes} (h : Encodes reserved s t) {b : UInt8}
    (hb : b ∈ reserved) (hpair : b = amp ∨ b = equals) : b ∉ t := by
  have hdigit : ∀ x, (hexValue x).isSome = true → b ≠ x := by
    rintro x hx rfl
    exact hpair.elim (hexValue_notMem b hx).1 (hexValue_notMem b hx).2
  have hsign : b ≠ percent ∧ b ≠ plusSign := by
    rcases hpair with rfl | rfl
    · exact ⟨by decide, by decide⟩
    · exact ⟨by decide, by decide⟩
  induction h with
  | nil => exact List.not_mem_nil
  | literal hc _ ih =>
    rw [List.mem_cons, not_or]
    exact ⟨fun h => hc.2.2 (h ▸ hb), ih⟩
  | plus _ ih =>
    rw [List.mem_cons, not_or]
    exact ⟨hsign.2, ih⟩
  | digits hxy _ ih =>
    obtain ⟨v, hv, hmap⟩ := Option.bind_eq_some_iff.mp hxy
    obtain ⟨w, hw, -⟩ := Option.map_eq_some_iff.mp hmap
    rw [List.mem_cons, List.mem_cons, List.mem_cons, not_or, not_or, not_or]
    exact ⟨hsign.1, hdigit _ (by rw [hv]; rfl), hdigit _ (by rw [hw]; rfl), ih⟩

/-- A field and a way to write it. -/
structure EncodedField where
  name : Bytes
  value : Bytes
  nameText : Bytes
  valueText : Bytes
  encodesName : Encodes [amp, equals] name nameText
  encodesValue : Encodes [amp] value valueText

def EncodedField.field (f : EncodedField) : Bytes × Bytes := (f.name, f.value)

def EncodedField.text (f : EncodedField) : Bytes := f.nameText ++ equals :: f.valueText

/-- The fields, joined by `&`. -/
def encodedForm : List EncodedField → Bytes
  | [] => []
  | f :: fs => f.text ++ (fs.map EncodedField.text).flatMap (amp :: ·)

theorem EncodedField.parsePair_text (f : EncodedField) : parsePair f.text = f.field := by
  have hname : equals ∉ f.nameText := f.encodesName.notMem (by decide) (Or.inr rfl)
  rw [parsePair, EncodedField.text, breakOn_single hname]
  exact congrArg₂ Prod.mk f.encodesName.decode f.encodesValue.decode

theorem EncodedField.amp_notMem (f : EncodedField) : amp ∉ f.text := by
  rw [EncodedField.text, List.mem_append, List.mem_cons, not_or, not_or]
  exact ⟨f.encodesName.notMem (by decide) (Or.inl rfl), by decide,
    f.encodesValue.notMem (by decide) (Or.inl rfl)⟩

theorem getlines_encodedForm (fs : List EncodedField) :
    getlines amp (encodedForm fs) = fs.map EncodedField.text := by
  cases fs with
  | nil => rfl
  | cons f fs =>
    have hbehind : ∀ t ∈ fs.map EncodedField.text, amp ∉ t := by
      intro t ht
      obtain ⟨g, -, rfl⟩ := List.mem_map.mp ht
      exact g.amp_notMem
    have hsplit : (encodedForm (f :: fs)).splitOn amp = (f :: fs).map EncodedField.text :=
      splitOn_pieces f.amp_notMem hbehind
    have hlast : ((f :: fs).map EncodedField.text).getLast? ≠ some [] := by
      intro h
      have hmem := List.mem_of_getLast? h
      obtain ⟨g, -, hg⟩ := List.mem_map.mp hmem
      exact absurd hg (by simp [EncodedField.text])
    rw [getlines, hsplit, if_neg hlast]

theorem parseQuery_encodedForm {fs : List EncodedField} (h : (fs.map EncodedField.name).Nodup) :
    parseQuery (encodedForm fs) = fs.map EncodedField.field := by
  have hkeys : ((fs.map EncodedField.field).map Prod.fst).Nodup := by
    rw [List.map_map]
    exact h
  rw [parseQuery, getlines_encodedForm, List.map_map,
    List.map_congr_left fun f _ => f.parsePair_text, AssocList.upsertAll_of_nodup hkeys]

end Form

end Look
