/-
What the decoder accepts besides JSON.

`Relaxed n t rest` is the grammar of the texts for which a value is returned: `t` without
`rest`, which is not looked at.  A missing or an additional separator is accepted, the end of
the text closes what is open, any byte may stand in a string and behind a backslash, and a
number is any run of the bytes of numbers.  The brackets, the quote before a key and the
first byte of a value are checked.
-/
import Look.Json.Soundness

namespace Look

namespace Json

open Exec

/-! ## The grammar -/

/-- The text behind an opening quote. -/
inductive Quoted : Bytes → Bytes → Prop where
  | close {rest} : Quoted (0x22 :: rest) rest
  | ended : Quoted [] []
  | byte {b t rest} (hquote : b ≠ 0x22) (hbackslash : b ≠ 0x5C) (h : Quoted t rest) :
    Quoted (b :: t) rest
  | escape {b t rest} (h : Quoted t rest) : Quoted (0x5C :: b :: t) rest
  | backslash : Quoted [0x5C] []
  /-- A `\u` without four digits takes another byte with it. -/
  | badCode {b t rest} (h : Quoted t rest) : Quoted (0x5C :: 0x75 :: b :: t) rest

/-- White space, perhaps the separator, and white space. -/
inductive Separated (sep : UInt8) : Bytes → Bytes → Prop where
  | missing {w rest} (hw : Blank w) : Separated sep (w ++ rest) rest
  | seen {w w' rest} (hw : Blank w) (hw' : Blank w') : Separated sep (w ++ sep :: w' ++ rest) rest

/-- A value with white space before it; at the end of the text it may be missing. -/
inductive Padded (P : Bytes → Bytes → Prop) : Bytes → Bytes → Prop where
  | value {w t rest} (hw : Blank w) (h : P t rest) : Padded P (w ++ t) rest
  | ended {w} (hw : Blank w) : Padded P w []

inductive RelaxedMember (P : Bytes → Bytes → Prop) : Bytes → Bytes → Prop where
  | mk {t u v rest} (hkey : Quoted t u) (hsep : Separated 0x3A u v) (h : Padded P v rest) :
    RelaxedMember P (0x22 :: t) rest

/-- Items up to the closing bracket, or up to the end of the text. -/
inductive RelaxedItems (Q : Bytes → Bytes → Prop) (stop : UInt8) : Bytes → Bytes → Prop where
  | close {rest} : RelaxedItems Q stop (stop :: rest) rest
  | ended : RelaxedItems Q stop [] []
  | item {t u v rest} (h : Q t u) (hsep : Separated 0x2C u v) (more : RelaxedItems Q stop v rest) :
    RelaxedItems Q stop t rest

inductive RelaxedNode (P : Bytes → Bytes → Prop) : Bytes → Bytes → Prop where
  | string {t rest} (h : Quoted t rest) : RelaxedNode P (0x22 :: t) rest
  | literal {lit rest} (h : lit ∈ [ascii "true", ascii "false", ascii "null"]) :
    RelaxedNode P (lit ++ rest) rest
  | number {b w rest} (hb : b = 0x2D ∨ isDigit b = true) (hw : ∀ c ∈ w, isNumberByte c = true) :
    RelaxedNode P (b :: w ++ rest) rest
  | array {w t rest} (hw : Blank w) (h : RelaxedItems (Padded P) 0x5D t rest) :
    RelaxedNode P (0x5B :: w ++ t) rest
  | object {w t rest} (hw : Blank w) (h : RelaxedItems (RelaxedMember P) 0x7D t rest) :
    RelaxedNode P (0x7B :: w ++ t) rest

/-- A value on one of `n` levels. -/
def Relaxed : Nat → Bytes → Bytes → Prop
  | 0 => fun _ _ => False
  | n + 1 => RelaxedNode (Relaxed n)

/-! ## Strings -/

variable {s t rest : Bytes} {i j : Nat}

theorem drop_succ_at {c : UInt8} (h : s.drop i = c :: t) : s.drop (i + 1) = t :=
  drop_at (w := [c]) h

theorem drop_of_nil (h : s.drop i = []) (hle : i ≤ j) : s.drop j = [] := by
  rw [List.drop_eq_nil_iff] at h ⊢
  exact Nat.le_trans h hle

theorem blank_of_isWs {c : UInt8} (h : isWs c = true) :
    c = 0x20 ∨ c = 0x09 ∨ c = 0x0A ∨ c = 0x0D := by
  simpa [isWs, or_assoc] using h

theorem blank_cons {c : UInt8} {w : Bytes} (hc : isWs c = true) (hw : Blank w) : Blank (c :: w) :=
  List.forall_mem_cons.mpr ⟨blank_of_isWs hc, hw⟩

theorem wsLoop_inv {a b : Unit} (h : Iterates (wsStep s) a i b j) :
    ∃ w, Blank w ∧ s.drop i = w ++ s.drop j ∧ NoBlank (s.drop j) := by
  induction h with
  | @done _ _ i j h =>
    by_cases hno : NoBlank (s.drop i)
    · rw [wsStep_unseen rfl hno] at h
      cases h
      exact ⟨[], blank_nil, rfl, hno⟩
    · cases hi : s.drop i with
      | nil => exact absurd (by rw [hi]; rfl) hno
      | cons c t =>
        rw [hi, NoBlank, Bool.not_eq_false] at hno
        rw [wsStep_seen hi hno] at h
        cases h
  | @next _ _ _ i k j h _ ih =>
    obtain ⟨w, hw, hdrop, hno⟩ := ih
    cases hi : s.drop i with
    | nil =>
      rw [wsStep_unseen hi rfl] at h
      cases h
    | cons c t =>
      by_cases hc : isWs c = true
      · rw [wsStep_seen hi hc] at h
        cases h
        refine ⟨c :: w, blank_cons hc hw, ?_, hno⟩
        rw [List.cons_append, ← hdrop, drop_succ_at hi]
      · have hblank : NoBlank (c :: t) := Bool.eq_false_iff.mpr hc
        rw [wsStep_unseen hi hblank] at h
        cases h

theorem skipWs_inv (h : skipWs s i = .ok () j) :
    ∃ w, Blank w ∧ s.drop i = w ++ s.drop j ∧ NoBlank (s.drop j) :=
  wsLoop_inv (iterates_of_iterate h)

theorem hexLoop_inv {k cp : Nat} {ks : List Nat} {c : UInt8} {r : Nat} (h : s.drop i = t)
    (hc : t[k]? = some c) (hloop : hexLoop s i (k :: ks) cp i = .ok (some r) j) :
    (hexval c).isSome ∧ ∃ cp', hexLoop s i ks cp' i = .ok (some r) j := by
  rw [hexLoop, bind_of_ok (byteAt_at h hc i)] at hloop
  cases hval : hexval c with
  | none =>
    rw [hval] at hloop
    cases hloop
  | some d =>
    rw [hval] at hloop
    exact ⟨rfl, _, hloop⟩

/-- Four digits have been read. -/
theorem readU4_inv {cp : Nat} (h : readU4 s i = .ok (some cp) j) :
    ∃ a b c d, s.drop i = a :: b :: c :: d :: s.drop j ∧
      ∀ x ∈ [a, b, c, d], (hexval x).isSome := by
  have hpos : pos i = .ok i i := rfl
  rw [readU4, bind_of_ok hpos] at h
  by_cases hlen : s.length < i + 4
  · rw [if_pos hlen] at h
    cases h
  · rw [if_neg hlen] at h
    obtain ⟨a, b, c, d, t, hdrop⟩ : ∃ a b c d t, s.drop i = a :: b :: c :: d :: t := by
      have hlength : (s.drop i).length = s.length - i := List.length_drop
      rcases hdrop : s.drop i with _ | ⟨a, _ | ⟨b, _ | ⟨c, _ | ⟨d, t⟩⟩⟩⟩
      any_goals
        rw [hdrop] at hlength
        simp only [List.length_cons, List.length_nil] at hlength
        omega
      exact ⟨a, b, c, d, t, rfl⟩
    obtain ⟨ha, _, h⟩ := hexLoop_inv hdrop rfl h
    obtain ⟨hb, _, h⟩ := hexLoop_inv hdrop rfl h
    obtain ⟨hc, _, h⟩ := hexLoop_inv hdrop rfl h
    obtain ⟨hd, _, h⟩ := hexLoop_inv hdrop rfl h
    cases h
    have hrest : s.drop (i + 4) = t := drop_at (w := [a, b, c, d]) hdrop
    refine ⟨a, b, c, d, ?_, by simp [ha, hb, hc, hd]⟩
    rw [hdrop, ← hrest]

theorem quoted_hex {a b c d : UInt8} (h : ∀ x ∈ [a, b, c, d], (hexval x).isSome)
    (hrest : Quoted t rest) : Quoted (a :: b :: c :: d :: t) rest := by
  have hplain : ∀ x, (hexval x).isSome → x ≠ 0x22 ∧ x ≠ 0x5C := by
    intro x hx
    refine ⟨?_, ?_⟩ <;> (rintro rfl; cases hx)
  have hbyte (x : UInt8) (hx : x ∈ [a, b, c, d]) := hplain x (h x hx)
  exact .byte (hbyte a (by simp)).1 (hbyte a (by simp)).2 (.byte (hbyte b (by simp)).1
    (hbyte b (by simp)).2 (.byte (hbyte c (by simp)).1 (hbyte c (by simp)).2
    (.byte (hbyte d (by simp)).1 (hbyte d (by simp)).2 hrest)))

theorem exists_of_code (hzero : t[0]? = some 0x5C) (hone : t[1]? = some 0x75) :
    ∃ u, t = 0x5C :: 0x75 :: u := by
  match t with
  | [] => cases hzero
  | [_] => cases hone
  | _ :: _ :: u => exact ⟨u, by rw [Option.some.inj hzero, Option.some.inj hone]⟩

/-- A code and, perhaps, the second half of a pair. -/
theorem lowHalf_inv {cp cp' : Nat} (h : lowHalf s cp i = .ok cp' j)
    (hrest : Quoted (s.drop j) rest) : Quoted (s.drop i) rest := by
  by_cases hcode : isHigh cp = true ∧ (s.drop i)[0]? = some 0x5C ∧ (s.drop i)[1]? = some 0x75
  · obtain ⟨hhigh, hzero, hone⟩ := hcode
    obtain ⟨u, hdrop⟩ := exists_of_code hzero hone
    have hpos : pos i = .ok i i := rfl
    have hadvance : advance 2 i = .ok () (i + 2) := rfl
    rw [lowHalf, bind_of_ok (sees_at hdrop 0 _), bind_of_ok (sees_at hdrop 1 _),
      if_pos (by simp [hhigh]), bind_of_ok hpos, bind_of_ok hadvance] at h
    obtain ⟨lo, k, hread, h⟩ := bind_eq_ok.mp h
    cases lo with
    | none =>
      cases h
      exact hrest
    | some lo =>
      by_cases hlow : isLow lo = true
      · dsimp only at h
        rw [if_pos hlow] at h
        obtain rfl := (Res.ok.inj h).2
        obtain ⟨a, b, c, d, hdigits, hhex⟩ := readU4_inv hread
        have hu : s.drop (i + 2) = u := drop_at (w := [0x5C, 0x75]) hdrop
        rw [hdrop, ← hu, hdigits]
        exact .escape (quoted_hex hhex hrest)
      · dsimp only at h
        rw [if_neg hlow] at h
        cases h
        exact hrest
  · rw [lowHalf_alone _ rfl hcode] at h
    cases h
    exact hrest

theorem strStep_end {r : Bytes} (h : s.drop i = []) : strStep s r i = .ok (.done r) i := by
  rw [strStep, bind_of_ok (sees_at h 0 _)]
  rfl

/-- A backslash is the last byte. -/
theorem strStep_last {r : Bytes} (h : s.drop i = [0x5C]) : strStep s r i = .ok (.done r) (i + 1) := by
  have hpos : pos i = .ok i i := rfl
  have hadvance : advance 1 i = .ok () (i + 1) := rfl
  rw [strStep, bind_of_ok (sees_at h _ _), if_pos (by simp), bind_of_ok hpos,
    bind_of_ok (byteAt_here h i), if_pos rfl, bind_of_ok hadvance,
    bind_of_ok (sees_at (drop_succ_at h) _ _)]
  rfl

theorem not_done_backslash {r r' : Bytes} (e : UInt8) : ¬(if e = 0x75 then do
        match ← readU4 s with
        | none => do
          advance 1
          pure (.next (r ++ [0x5C, 0x75]))
        | some cp => do
          let cp ← lowHalf s cp
          pure (.next (appendUtf8 r cp))
      else pure (.next (r ++ [unescape e])) : Parser (Turn Bytes Bytes)) i = .ok (.done r') j := by
  intro h
  by_cases he : e = 0x75
  · rw [if_pos he] at h
    obtain ⟨cp, k, -, h⟩ := bind_eq_ok.mp h
    cases cp with
    | none =>
      obtain ⟨-, l, -, h⟩ := bind_eq_ok.mp h
      cases h
    | some cp =>
      obtain ⟨cp', l, -, h⟩ := bind_eq_ok.mp h
      cases h
  · rw [if_neg he] at h
    cases h

/-- What a backslash and the byte behind it are the beginning of. -/
theorem backslash_inv {r r' : Bytes} {e : UInt8} (hi : s.drop i = 0x5C :: e :: t)
    (h : strStep s r i = .ok (.next r') j) (hrest : Quoted (s.drop j) rest) :
    Quoted (0x5C :: e :: t) rest := by
  have ht : s.drop (i + 2) = t := drop_at (w := [0x5C, e]) hi
  rw [strStep_backslash hi] at h
  by_cases he : e = 0x75
  · rw [if_pos he] at h
    obtain ⟨cp, k, hread, h⟩ := bind_eq_ok.mp h
    cases cp with
    | none =>
      rcases readU4_cases s (i + 2) with ⟨cp, hsome⟩ | hnone
      · rw [hsome] at hread
        cases hread
      · rw [hnone] at hread
        cases hread
        obtain rfl : i + 2 + 1 = j := (Res.ok.inj h).2
        cases t with
        | nil =>
          rw [drop_of_nil ht (Nat.le_succ _)] at hrest
          exact .escape hrest
        | cons b t =>
          rw [drop_succ_at ht] at hrest
          rw [he]
          exact .badCode hrest
    | some cp =>
      obtain ⟨cp', l, hlow, h⟩ := bind_eq_ok.mp h
      obtain rfl : l = j := (Res.ok.inj h).2
      obtain ⟨a, b, c, d, hdigits, hhex⟩ := readU4_inv hread
      rw [← ht, hdigits]
      exact .escape (quoted_hex hhex (lowHalf_inv hlow hrest))
  · rw [if_neg he] at h
    obtain rfl : i + 2 = j := (Res.ok.inj h).2
    rw [ht] at hrest
    exact .escape hrest

/-- A turn of the loop that goes on has taken a part of the string. -/
theorem strStep_next {r r' : Bytes} (h : strStep s r i = .ok (.next r') j)
    (hrest : Quoted (s.drop j) rest) : Quoted (s.drop i) rest := by
  cases hi : s.drop i with
  | nil =>
    rw [strStep_end hi] at h
    cases h
  | cons b t =>
    by_cases hquote : b = 0x22
    · subst hquote
      rw [strStep_quote hi] at h
      cases h
    · by_cases hbackslash : b = 0x5C
      · subst hbackslash
        cases t with
        | nil =>
          rw [strStep_last hi] at h
          cases h
        | cons e t => exact backslash_inv hi h hrest
      · rw [strStep_plain hi hquote hbackslash] at h
        cases h
        rw [drop_succ_at hi] at hrest
        exact .byte hquote hbackslash hrest

/-- The loop stops at a quote or at the end of the text. -/
theorem strStep_done {r r' : Bytes} (h : strStep s r i = .ok (.done r') j) :
    Quoted (s.drop i) (s.drop (j + 1)) := by
  cases hi : s.drop i with
  | nil =>
    rw [strStep_end hi] at h
    obtain rfl : i = j := (Res.ok.inj h).2
    rw [drop_of_nil hi (Nat.le_succ i)]
    exact .ended
  | cons b t =>
    by_cases hquote : b = 0x22
    · subst hquote
      rw [strStep_quote hi] at h
      obtain rfl : i = j := (Res.ok.inj h).2
      rw [drop_succ_at hi]
      exact .close
    · by_cases hbackslash : b = 0x5C
      · subst hbackslash
        cases t with
        | nil =>
          rw [strStep_last hi] at h
          obtain rfl : i + 1 = j := (Res.ok.inj h).2
          rw [drop_of_nil (drop_succ_at hi) (Nat.le_succ _)]
          exact .backslash
        | cons e t =>
          rw [strStep_backslash hi] at h
          exact absurd h (not_done_backslash e)
      · rw [strStep_plain hi hquote hbackslash] at h
        cases h

theorem strLoop_inv {r r' : Bytes} (h : Iterates (strStep s) r i r' j) :
    Quoted (s.drop i) (s.drop (j + 1)) := by
  induction h with
  | done h => exact strStep_done h
  | next h _ ih => exact strStep_next h ih

theorem decodeStr_inv {str : Bytes} (hi : s.drop i = 0x22 :: t) (h : decodeStr s i = .ok str j) :
    Quoted t (s.drop j) := by
  have hadvance (k : Nat) : advance 1 k = .ok () (k + 1) := rfl
  rw [decodeStr, bind_of_ok (hadvance i)] at h
  obtain ⟨r, k, hloop, h⟩ := bind_eq_ok.mp h
  obtain rfl : k + 1 = j := (Res.ok.inj h).2
  have hquoted := strLoop_inv (iterates_of_iterate hloop)
  rwa [drop_succ_at hi] at hquoted

/-! ## Separators and brackets -/

theorem skipIf_inv {p : UInt8 → Bool} (h : skipIf s p i = .ok () j) :
    (j = i ∧ (s.drop i)[0]?.any p = false) ∨ ∃ c, p c = true ∧ s.drop i = c :: s.drop j := by
  rw [skipIf, bind_of_ok (sees_at rfl 0 p)] at h
  by_cases hany : (s.drop i)[0]?.any p = true
  · rw [if_pos hany] at h
    obtain ⟨c, hc, hp⟩ := any_iff.mp hany
    obtain rfl : i + 1 = j := (Res.ok.inj h).2
    cases hi : s.drop i with
    | nil =>
      rw [hi] at hc
      cases hc
    | cons b t =>
      rw [hi] at hc
      obtain rfl := Option.some.inj hc
      exact .inr ⟨b, hp, by rw [drop_succ_at hi]⟩
  · rw [if_neg hany] at h
    obtain rfl : i = j := (Res.ok.inj h).2
    exact .inl ⟨rfl, Bool.eq_false_iff.mpr hany⟩

theorem separator_inv {sep : UInt8} (h : separator s sep i = .ok () j) :
    Separated sep (s.drop i) (s.drop j) := by
  obtain ⟨_, k, hfirst, h⟩ := bind_eq_ok.mp h
  obtain ⟨_, l, hskip, hsecond⟩ := bind_eq_ok.mp h
  obtain ⟨w, hw, hi, -⟩ := skipWs_inv hfirst
  obtain ⟨w', hw', hl, -⟩ := skipWs_inv hsecond
  rcases skipIf_inv hskip with ⟨rfl, -⟩ | ⟨c, hc, hk⟩
  · rw [hi, hl, ← List.append_assoc]
    exact .missing (List.forall_mem_append.mpr ⟨hw, hw'⟩)
  · obtain rfl := of_decide_eq_true hc
    rw [hi, hk, hl, ← List.cons_append, ← List.append_assoc]
    exact .seen hw hw'

theorem close_inv (h : close s i = .ok () j) : s.drop j = s.drop (i + 1) := by
  rcases skipIf_inv h with ⟨rfl, hnone⟩ | ⟨c, -, hi⟩
  · cases hj : s.drop j with
    | nil => exact (drop_of_nil hj (Nat.le_succ j)).symm
    | cons c t =>
      rw [hj] at hnone
      cases hnone
  · exact (drop_succ_at hi).symm

/-! ## Arrays and objects -/

section Loops

variable {β : Type} {step : β → Parser (Turn β β)} {Q : Bytes → Bytes → Prop} {stop : UInt8}

/-- A loop over items whose turns take an item and what separates it from the next one. -/
theorem itemLoop_inv (hdone : ∀ b b' i j, step b i = .ok (.done b') j →
      j = i ∧ (s.drop i)[0]?.any (· ≠ stop) = false)
    (hnext : ∀ b b' i j, step b i = .ok (.next b') j →
      ∃ u, Q (s.drop i) u ∧ Separated 0x2C u (s.drop j)) {b b' : β}
    (h : Iterates step b i b' j) : RelaxedItems Q stop (s.drop i) (s.drop (j + 1)) := by
  induction h with
  | done h =>
    obtain ⟨rfl, hstop⟩ := hdone _ _ _ _ h
    rename_i i
    cases hi : s.drop i with
    | nil =>
      rw [drop_of_nil hi (Nat.le_succ i)]
      exact .ended
    | cons c t =>
      rw [hi] at hstop
      obtain rfl : c = stop := by simpa using hstop
      rw [drop_succ_at hi]
      exact .close
  | next h _ ih =>
    obtain ⟨u, hitem, hsep⟩ := hnext _ _ _ _ h
    exact .item hitem hsep ih

end Loops

variable {value : Parser Data} {P : Bytes → Bytes → Prop}

/-- What is asked of the decoder of elements. -/
def Reads (s : Bytes) (value : Parser Data) (P : Bytes → Bytes → Prop) : Prop :=
  ∀ i j v, value i = .ok v j → Padded P (s.drop i) (s.drop j)

theorem elementStep_inv {arr : List Data} {r : Turn (List Data) (List Data)}
    (h : elementStep s value arr i = .ok r j) :
    (j = i ∧ r = .done arr ∧ (s.drop i)[0]?.any (· ≠ 0x5D) = false) ∨
      ∃ v k arr', r = .next arr' ∧ value i = .ok v k ∧ separator s 0x2C k = .ok () j := by
  have hpos (k : Nat) : pos k = .ok k k := rfl
  rw [elementStep, bind_of_ok (sees_at rfl 0 _)] at h
  by_cases hmore : (s.drop i)[0]?.any (· ≠ 0x5D) = true
  · rw [if_pos hmore, bind_of_ok (hpos i)] at h
    obtain ⟨v, k, hv, h⟩ := bind_eq_ok.mp h
    obtain ⟨_, l, hsep, h⟩ := bind_eq_ok.mp h
    rw [bind_of_ok (hpos l)] at h
    by_cases hstuck : l = i
    · rw [if_pos hstuck] at h
      cases h
    · rw [if_neg hstuck] at h
      cases h
      exact .inr ⟨v, k, _, rfl, hv, hsep⟩
  · rw [if_neg hmore] at h
    cases h
    exact .inl ⟨rfl, rfl, Bool.eq_false_iff.mpr hmore⟩

theorem memberStep_inv {arr : List (Bytes × Data)}
    {r : Turn (List (Bytes × Data)) (List (Bytes × Data))}
    (h : memberStep s value arr i = .ok r j) :
    (j = i ∧ r = .done arr ∧ (s.drop i)[0]?.any (· ≠ 0x7D) = false) ∨
      ∃ t key k l v m arr', r = .next arr' ∧ s.drop i = 0x22 :: t ∧ decodeStr s i = .ok key k ∧
        separator s 0x3A k = .ok () l ∧ value l = .ok v m ∧ separator s 0x2C m = .ok () j := by
  have hpos (k : Nat) : pos k = .ok k k := rfl
  rw [memberStep, bind_of_ok (sees_at rfl 0 _)] at h
  by_cases hmore : (s.drop i)[0]?.any (· ≠ 0x7D) = true
  · rw [if_pos hmore, bind_of_ok (hpos i)] at h
    cases hi : s.drop i with
    | nil =>
      rw [hi] at hmore
      cases hmore
    | cons c t =>
      rw [bind_of_ok (byteAt_here hi i)] at h
      by_cases hquote : c = 0x22
      · subst hquote
        rw [if_neg (by simp)] at h
        obtain ⟨key, k, hkey, h⟩ := bind_eq_ok.mp h
        obtain ⟨_, l, hcolon, h⟩ := bind_eq_ok.mp h
        obtain ⟨v, m, hv, h⟩ := bind_eq_ok.mp h
        obtain ⟨_, n, hcomma, h⟩ := bind_eq_ok.mp h
        rw [bind_of_ok (hpos n)] at h
        by_cases hstuck : n = i
        · rw [if_pos hstuck] at h
          cases h
        · rw [if_neg hstuck] at h
          cases h
          exact .inr ⟨t, key, k, l, v, m, _, rfl, rfl, hkey, hcolon, hv, hcomma⟩
      · rw [if_pos hquote] at h
        cases h
  · rw [if_neg hmore] at h
    cases h
    exact .inl ⟨rfl, rfl, Bool.eq_false_iff.mpr hmore⟩

theorem array_inv {v : Data} (hvalue : Reads s value P) (hi : s.drop i = 0x5B :: t)
    (h : array s value i = .ok v j) : RelaxedNode P (0x5B :: t) (s.drop j) := by
  have hadvance : advance 1 i = .ok () (i + 1) := rfl
  rw [array, bind_of_ok hadvance] at h
  obtain ⟨_, k, hskip, h⟩ := bind_eq_ok.mp h
  obtain ⟨arr, l, hloop, h⟩ := bind_eq_ok.mp h
  obtain ⟨_, m, hclose, h⟩ := bind_eq_ok.mp h
  obtain rfl : m = j := (Res.ok.inj h).2
  obtain ⟨w, hw, hblank, -⟩ := skipWs_inv hskip
  rw [drop_succ_at hi] at hblank
  have hitems : RelaxedItems (Padded P) 0x5D (s.drop k) (s.drop (l + 1)) := by
    refine itemLoop_inv (fun b b' i j hstep => ?_) (fun b b' i j hstep => ?_)
      (iterates_of_iterate hloop)
    · rcases elementStep_inv hstep with ⟨hj, -, hstop⟩ | ⟨_, _, _, hnext, -⟩
      · exact ⟨hj, hstop⟩
      · cases hnext
    · rcases elementStep_inv hstep with ⟨-, hdone, -⟩ | ⟨v, k, _, -, hv, hsep⟩
      · cases hdone
      · exact ⟨_, hvalue _ _ _ hv, separator_inv hsep⟩
  rw [hblank, close_inv hclose]
  exact .array hw hitems

theorem object_inv {v : Data} (hvalue : Reads s value P) (hi : s.drop i = 0x7B :: t)
    (h : object s value i = .ok v j) : RelaxedNode P (0x7B :: t) (s.drop j) := by
  have hadvance : advance 1 i = .ok () (i + 1) := rfl
  rw [object, bind_of_ok hadvance] at h
  obtain ⟨_, k, hskip, h⟩ := bind_eq_ok.mp h
  obtain ⟨arr, l, hloop, h⟩ := bind_eq_ok.mp h
  obtain ⟨_, m, hclose, h⟩ := bind_eq_ok.mp h
  obtain rfl : m = j := (Res.ok.inj h).2
  obtain ⟨w, hw, hblank, -⟩ := skipWs_inv hskip
  rw [drop_succ_at hi] at hblank
  have hitems : RelaxedItems (RelaxedMember P) 0x7D (s.drop k) (s.drop (l + 1)) := by
    refine itemLoop_inv (fun b b' i j hstep => ?_) (fun b b' i j hstep => ?_)
      (iterates_of_iterate hloop)
    · rcases memberStep_inv hstep with ⟨hj, -, hstop⟩ | ⟨_, _, _, _, _, _, _, hnext, -⟩
      · exact ⟨hj, hstop⟩
      · cases hnext
    · rcases memberStep_inv hstep with ⟨-, hdone, -⟩ |
        ⟨t, key, k, l, v, m, _, -, hquote, hkey, hcolon, hv, hcomma⟩
      · cases hdone
      · refine ⟨_, ?_, separator_inv hcomma⟩
        rw [hquote]
        exact .mk (decodeStr_inv hquote hkey) (separator_inv hcolon) (hvalue _ _ _ hv)
  rw [hblank, close_inv hclose]
  exact .object hw hitems

/-! ## Values -/

theorem numberLoop_inv {a b : Bool} (h : Iterates (numberStep s) a i b j) :
    ∃ w, (∀ c ∈ w, isNumberByte c = true) ∧ s.drop i = w ++ s.drop j ∧ Follow (s.drop j) := by
  have hpos (k : Nat) : pos k = .ok k k := rfl
  have hadvance (k : Nat) : advance 1 k = .ok () (k + 1) := rfl
  induction h with
  | @done a _ i j h =>
    rw [numberStep, bind_of_ok (sees_at rfl 0 _)] at h
    by_cases hmore : (s.drop i)[0]?.any isNumberByte = true
    · rw [if_pos hmore, bind_of_ok (hpos i)] at h
      obtain ⟨_, _, _, h⟩ := bind_eq_ok.mp h
      obtain ⟨_, _, _, h⟩ := bind_eq_ok.mp h
      cases h
    · rw [if_neg hmore] at h
      cases h
      exact ⟨[], List.forall_mem_nil _, rfl, Bool.eq_false_iff.mpr hmore⟩
  | @next a _ _ i k j h _ ih =>
    obtain ⟨w, hw, hk, hfollow⟩ := ih
    rw [numberStep, bind_of_ok (sees_at rfl 0 _)] at h
    by_cases hmore : (s.drop i)[0]?.any isNumberByte = true
    · obtain ⟨c, hc, hnumber⟩ := any_iff.mp hmore
      obtain ⟨t, hi⟩ : ∃ t, s.drop i = c :: t := by
        cases hi : s.drop i with
        | nil =>
          rw [hi] at hc
          cases hc
        | cons b t =>
          rw [hi] at hc
          exact ⟨t, by rw [Option.some.inj hc]⟩
      rw [if_pos hmore, bind_of_ok (hpos i), bind_of_ok (byteAt_here hi i),
        bind_of_ok (hadvance i)] at h
      obtain rfl : i + 1 = k := (Res.ok.inj h).2
      refine ⟨c :: w, List.forall_mem_cons.mpr ⟨hnumber, hw⟩, ?_, hfollow⟩
      rw [hi, List.cons_append, ← hk, drop_succ_at hi]
    · rw [if_neg hmore] at h
      cases h

section Values

variable [DoubleOps]

theorem number_inv {v : Data} {b : UInt8} (hi : s.drop i = b :: t)
    (hb : b = 0x2D ∨ isDigit b = true) (h : number s i = .ok v j) :
    RelaxedNode P (b :: t) (s.drop j) := by
  have hpos (k : Nat) : pos k = .ok k k := rfl
  have hadvance (n k : Nat) : advance n k = .ok () (k + n) := rfl
  rw [number, bind_of_ok (hpos i), bind_of_ok (byteAt_here hi i), bind_of_ok (hadvance _ i)] at h
  obtain ⟨isFloat, k, hloop, h⟩ := bind_eq_ok.mp h
  rw [bind_of_ok (hpos k), bind_of_ok (substr_apply (length_le_at hi) _ k)] at h
  obtain rfl : k = j := (Res.ok.inj h).2
  obtain ⟨w, hw, hdrop, hfollow⟩ := numberLoop_inv (iterates_of_iterate hloop)
  by_cases hminus : b = 0x2D
  · rw [if_pos hminus, drop_succ_at hi] at hdrop
    rw [hdrop]
    exact .number hb hw
  · have hdigit := hb.resolve_left hminus
    have hzero : s.drop (i + 0) = b :: t := hi
    rw [if_neg hminus, hzero] at hdrop
    cases w with
    | nil =>
      rw [List.nil_append] at hdrop
      rw [← hdrop] at hfollow
      have hnumber : isNumberByte b = true := by simp [isNumberByte, hdigit]
      exact absurd (hnumber.symm.trans hfollow) (by decide)
    | cons c w =>
      rw [List.forall_mem_cons] at hw
      obtain ⟨rfl, rfl⟩ := List.cons.inj hdrop
      exact .number hb hw.2

theorem scalar_inv {v : Data} {b : UInt8} (hi : s.drop i = b :: t) (h : scalar s b i = .ok v j) :
    RelaxedNode P (b :: t) (s.drop j) := by
  have hpos : pos i = .ok i i := rfl
  have hle := length_le_at hi
  have hadvance (n : Nat) : advance n i = .ok () (i + n) := rfl
  have hliteral {n : Nat} {lit : Bytes} (htake : (s.drop i).take n = lit)
      (hmem : lit ∈ [ascii "true", ascii "false", ascii "null"]) :
      RelaxedNode P (b :: t) (s.drop (i + n)) := by
    have hsplit := List.take_append_drop n (s.drop i)
    rw [htake, hi, List.drop_drop.symm.trans (congrArg _ hi) |>.symm] at hsplit
    rw [← hsplit]
    exact .literal hmem
  rw [scalar, bind_of_ok hpos, bind_of_ok (substr_apply hle 4 i)] at h
  by_cases htrue : (s.drop i).take 4 = ascii "true"
  · rw [if_pos htrue, bind_of_ok (hadvance 4)] at h
    obtain rfl : i + 4 = j := (Res.ok.inj h).2
    exact hliteral htrue (by simp)
  · rw [if_neg htrue, bind_of_ok (substr_apply hle 5 i)] at h
    by_cases hfalse : (s.drop i).take 5 = ascii "false"
    · rw [if_pos hfalse, bind_of_ok (hadvance 5)] at h
      obtain rfl : i + 5 = j := (Res.ok.inj h).2
      exact hliteral hfalse (by simp)
    · rw [if_neg hfalse, bind_of_ok (substr_apply hle 4 i)] at h
      by_cases hnull : (s.drop i).take 4 = ascii "null"
      · rw [if_pos hnull, bind_of_ok (hadvance 4)] at h
        obtain rfl : i + 4 = j := (Res.ok.inj h).2
        exact hliteral hnull (by simp)
      · rw [if_neg hnull] at h
        by_cases hreject : b ≠ 0x2D ∧ ¬isDigit b = true
        · rw [if_pos hreject] at h
          cases h
        · rw [if_neg hreject] at h
          have hstart : b = 0x2D ∨ isDigit b = true := by
            rw [not_and_or, not_not, not_not] at hreject
            exact hreject
          exact number_inv hi hstart h

/-- Where a value is returned, the text is of the relaxed grammar, or there is no value. -/
theorem decodeLevel_inv {n : Nat} {v : Data} (h : decodeLevel s n i = .ok v j) :
    (∃ w t, Blank w ∧ s.drop i = w ++ t ∧ Relaxed n t (s.drop j)) ∨
      v = .none ∧ Blank (s.drop i) ∧ s.drop j = [] := by
  induction n generalizing i j v with
  | zero => cases h
  | succ n ih =>
    have hvalue : Reads s (decodeLevel s n) (Relaxed n) := by
      intro i j v h
      rcases ih h with ⟨w, t, hw, hi, hrelaxed⟩ | ⟨-, hblank, hj⟩
      · rw [hi]
        exact .value hw hrelaxed
      · rw [hj]
        exact .ended hblank
    have hpos (k : Nat) : pos k = .ok k k := rfl
    obtain ⟨_, k, hskip, h⟩ := bind_eq_ok.mp h
    obtain ⟨w, hw, hi, -⟩ := skipWs_inv hskip
    rw [bind_of_ok (sees_at rfl 0 _)] at h
    cases hk : s.drop k with
    | nil =>
      rw [hk, if_neg (by simp)] at h
      cases h
      rw [hk, List.append_nil] at hi
      exact .inr ⟨rfl, hi ▸ hw, hk⟩
    | cons c t =>
      rw [hk, if_pos (by simp), bind_of_ok (hpos k), bind_of_ok (byteAt_here hk k)] at h
      refine .inl ⟨w, c :: t, hw, by rw [hi, hk], ?_⟩
      by_cases hquote : c = 0x22
      · subst hquote
        rw [if_pos rfl] at h
        obtain ⟨str, l, hstr, h⟩ := bind_eq_ok.mp h
        obtain rfl : l = j := (Res.ok.inj h).2
        exact .string (decodeStr_inv hk hstr)
      · rw [if_neg hquote] at h
        by_cases hbrace : c = 0x7B
        · subst hbrace
          rw [if_pos rfl] at h
          exact object_inv hvalue hk h
        · rw [if_neg hbrace] at h
          by_cases hbracket : c = 0x5B
          · subst hbracket
            rw [if_pos rfl] at h
            exact array_inv hvalue hk h
          · rw [if_neg hbracket] at h
            exact scalar_inv hk h

end Values

end Json

end Look
