/-
A string of the grammar is decoded to the bytes that it denotes.

Positions are known from what stands behind them: `s.drop i = t` says that the decoder is at
`i` and has `t` before it.  The loop over a string is followed on the parts of the string,
two of them at a time where they are the halves of a pair.
-/
import Mathlib.Algebra.Group.Int.Defs
import Mathlib.Algebra.Group.Nat.Defs
import Look.Json.Grammar
import Look.Json.Safety

namespace Look

namespace Json

open Exec

variable {s t rest : Bytes} {i : Nat}

/-! ## What stands at a position -/

theorem getElem?_at (h : s.drop i = t) (k : Nat) : s[i + k]? = t[k]? := by
  rw [← h, List.getElem?_drop]

theorem drop_at {w : Bytes} (h : s.drop i = w ++ t) : s.drop (i + w.length) = t := by
  rw [← List.drop_drop, h, List.drop_left]

theorem sees_at (h : s.drop i = t) (k : Nat) (p : UInt8 → Bool) :
    sees s k p i = .ok (t[k]?.any p) i := by
  rw [sees_apply, getElem?_at h]

theorem byteAt_at {c : UInt8} {k : Nat} (h : s.drop i = t) (hc : t[k]? = some c) (j : Nat) :
    byteAt s (i + k) j = .ok c j :=
  byteAt_apply ((getElem?_at h k).trans hc) j

theorem length_at {c : UInt8} (h : s.drop i = c :: t) : i + t.length + 1 = s.length := by
  have hlen := congrArg List.length h
  rw [List.length_drop, List.length_cons] at hlen
  omega

/-! ## White space -/

/-- No white space comes next. -/
def NoBlank (rest : Bytes) : Prop := rest[0]?.any isWs = false

theorem isWs_of_blank {w : Bytes} (h : Blank w) : ∀ c ∈ w, isWs c = true := by
  intro c hc
  rcases h c hc with rfl | rfl | rfl | rfl <;> rfl

theorem wsStep_seen {c : UInt8} (h : s.drop i = c :: t) (hc : isWs c = true) :
    wsStep s () i = .ok (.next ()) (i + 1) := by
  rw [wsStep, bind_of_ok (sees_at h 0 _), if_pos (by simp [hc])]
  rfl

theorem wsStep_unseen (h : s.drop i = t) (ht : NoBlank t) : wsStep s () i = .ok (.done ()) i := by
  rw [wsStep, bind_of_ok (sees_at h 0 _), if_neg (by rw [ht]; decide)]
  rfl

theorem blank_nil : Blank [] := List.forall_mem_nil _

/-- White space is skipped up to something else. -/
theorem skipWs_at {w : Bytes} (hw : Blank w) (hrest : NoBlank rest) (h : s.drop i = w ++ rest) :
    skipWs s i = .ok () (i + w.length) := by
  have hloop : Iterates (wsStep s) () i () (i + w.length) := by
    have hall := isWs_of_blank hw
    clear hw
    induction w generalizing i with
    | nil => exact .done (wsStep_unseen h hrest)
    | cons c w ih =>
      rw [List.forall_mem_cons] at hall
      have hlen : i + (c :: w).length = i + 1 + w.length := by
        rw [List.length_cons]
        omega
      rw [hlen]
      exact .next (wsStep_seen h hall.1) (ih (drop_at (w := [c]) h) hall.2)
  exact hloop.iterate (skipWs_finishes s i).ne_timeout

/-! ## Codes -/

theorem low_six (n : Nat) : 0x80 ||| n &&& 0x3F = n % 64 + 128 := by
  rw [Nat.and_two_pow_sub_one_eq_mod n 6, Nat.add_comm]
  exact (Nat.two_pow_add_eq_or_of_lt (i := 6) (Nat.mod_lt n (by decide)) 2).symm

theorem lead_or (a : Nat) {b n : Nat} (h : n < 2 ^ b) : 2 ^ b * a ||| n = n + 2 ^ b * a := by
  rw [← Nat.two_pow_add_eq_or_of_lt h, Nat.add_comm]

/-- The source writes the UTF-8 bytes of a code. -/
theorem appendUtf8_eq (out : Bytes) {cp : Nat} (h : cp < 0x110000) :
    appendUtf8 out cp = out ++ codeBytes cp := by
  simp only [appendUtf8, low_six, Nat.shiftRight_eq_div_pow, Nat.reducePow]
  rw [codeBytes]
  by_cases hpair : 0xD800 ≤ cp ∧ cp ≤ 0xDFFF
  · rw [if_pos hpair, if_neg (by omega), if_neg (by omega), if_pos (by omega)]
    have hlead : cp / 4096 = 13 := by omega
    rw [hlead, Nat.add_comm 0x80, Nat.add_comm 0x80]
    rfl
  · have hvalid : cp.isValidChar := by
      simp only [Nat.isValidChar]
      omega
    have hchar : (Char.ofNat cp).val.toNat = cp := by
      rw [Char.ofNat, dif_pos hvalid]
      exact UInt32.toNat_ofNatLT
    rw [if_neg hpair, String.utf8EncodeChar, hchar]
    by_cases h1 : cp < 0x80
    · rw [if_pos h1, if_pos (show cp ≤ 127 by omega)]
    · rw [if_neg h1, if_neg (show ¬cp ≤ 127 by omega)]
      by_cases h2 : cp < 0x800
      · have hlead : 192 ||| cp / 64 = cp / 64 + 192 := lead_or 6 (b := 5) (by omega)
        rw [if_pos h2, if_pos (show cp ≤ 2047 by omega),
          Nat.mod_eq_of_lt (a := cp / 64) (by omega), ← hlead]
      · rw [if_neg h2, if_neg (show ¬cp ≤ 2047 by omega)]
        by_cases h3 : cp < 0x10000
        · have hlead : 224 ||| cp / 4096 = cp / 4096 + 224 := lead_or 14 (b := 4) (by omega)
          rw [if_pos h3, if_pos (show cp ≤ 65535 by omega),
            Nat.mod_eq_of_lt (a := cp / 4096) (by omega), ← hlead]
        · have hlead : 240 ||| cp / 262144 = cp / 262144 + 240 := lead_or 30 (b := 3) (by omega)
          rw [if_neg h3, if_neg (show ¬cp ≤ 65535 by omega),
            Nat.mod_eq_of_lt (a := cp / 262144) (by omega), ← hlead]
theorem hex_lt {i j k l : Nat} (hi : i < 16) (hj : j < 16) (hk : k < 16) (hl : l < 16) :
    ((i * 16 + j) * 16 + k) * 16 + l < 0x10000 := by
  omega

theorem hexval_of_hexDigit {c : UInt8} {d : Nat} (h : HexDigit c d) :
    hexval c = some d ∧ d < 16 := by
  have hlower : ∀ d < 16, (ascii "0123456789abcdef")[d]?.bind hexval = some d := by decide
  have hupper : ∀ d < 16, (ascii "0123456789ABCDEF")[d]?.bind hexval = some d := by decide
  rcases h with h | h
  · have hd : d < 16 := (List.getElem?_eq_some_iff.mp h).1
    have hval := hlower d hd
    rw [h] at hval
    exact ⟨hval, hd⟩
  · have hd : d < 16 := (List.getElem?_eq_some_iff.mp h).1
    have hval := hupper d hd
    rw [h] at hval
    exact ⟨hval, hd⟩

theorem hexLoop_cons {c : UInt8} {k d : Nat} {ks : List Nat} {cp : Nat} (h : s.drop i = t)
    (hc : t[k]? = some c) (hd : HexDigit c d) :
    hexLoop s i (k :: ks) cp i = hexLoop s i ks (cp * 16 + d) i := by
  obtain ⟨hval, hlt⟩ := hexval_of_hexDigit hd
  have hor : cp <<< 4 ||| d = cp * 16 + d := by
    rw [← Nat.shiftLeft_add_eq_or_of_lt hlt, Nat.shiftLeft_eq]
  rw [hexLoop, bind_apply, byteAt_at h hc]
  dsimp only
  rw [hval]
  dsimp only
  rw [hor]

/-- Four digits are read as a number. -/
theorem readU4_at {a b c d : UInt8} {j k l m : Nat} (h : s.drop i = a :: b :: c :: d :: t)
    (ha : HexDigit a j) (hb : HexDigit b k) (hc : HexDigit c l) (hd : HexDigit d m) :
    readU4 s i = .ok (some (((j * 16 + k) * 16 + l) * 16 + m)) (i + 4) := by
  have hlen := length_at h
  simp only [List.length_cons] at hlen
  rw [readU4, bind_apply, pos, gets_apply]
  dsimp only [id]
  rw [if_neg (by omega), hexLoop_cons h rfl ha, hexLoop_cons h rfl hb, hexLoop_cons h rfl hc,
    hexLoop_cons h rfl hd, Nat.zero_mul, Nat.zero_add]
  rfl

/-! ## Pairs -/

/-- A code without a second half is left alone. -/
theorem lowHalf_alone (cp : Nat) (h : s.drop i = t)
    (hnot : ¬(isHigh cp = true ∧ t[0]? = some 0x5C ∧ t[1]? = some 0x75)) :
    lowHalf s cp i = .ok cp i := by
  rw [lowHalf, bind_of_ok (sees_at h _ _), bind_of_ok (sees_at h _ _), if_neg]
  · rfl
  · intro hall
    simp only [Bool.and_eq_true, any_iff, decide_eq_true_eq, exists_eq_right] at hall
    exact hnot ⟨hall.1.1, hall.1.2, hall.2⟩

/-- A code and the code behind it. -/
theorem lowHalf_code (cp : Nat) {a b c d : UInt8} {j k l m : Nat}
    (h : s.drop i = 0x5C :: 0x75 :: a :: b :: c :: d :: t) (ha : HexDigit a j) (hb : HexDigit b k)
    (hc : HexDigit c l) (hd : HexDigit d m) :
    lowHalf s cp i =
      if isHigh cp = true ∧ isLow (((j * 16 + k) * 16 + l) * 16 + m) = true then
        .ok (combined cp (((j * 16 + k) * 16 + l) * 16 + m)) (i + 6)
      else .ok cp i := by
  have hread : readU4 s (i + 2) = .ok (some (((j * 16 + k) * 16 + l) * 16 + m)) (i + 6) :=
    readU4_at (drop_at (w := [0x5C, 0x75]) h) ha hb hc hd
  rw [lowHalf, bind_of_ok (sees_at h _ _), bind_of_ok (sees_at h _ _)]
  by_cases hhigh : isHigh cp = true
  · have hsave : pos i = .ok i i := rfl
    have hadvance : advance 2 i = .ok () (i + 2) := rfl
    rw [if_pos (by simp [hhigh]), bind_of_ok hsave, bind_of_ok hadvance, bind_of_ok hread]
    by_cases hlow : isLow (((j * 16 + k) * 16 + l) * 16 + m) = true
    · rw [if_pos ⟨hhigh, hlow⟩]
      dsimp only
      rw [if_pos hlow]
      rfl
    · rw [if_neg fun hall => hlow hall.2]
      dsimp only
      rw [if_neg hlow]
      rfl
  · rw [if_neg (by simp [hhigh]), if_neg (by simp [hhigh])]
    rfl

/-! ## The loop -/

variable {result : Bytes}

theorem byteAt_here {c : UInt8} (h : s.drop i = c :: t) (j : Nat) : byteAt s i j = .ok c j :=
  byteAt_at (k := 0) h rfl j

theorem strStep_quote (h : s.drop i = 0x22 :: t) :
    strStep s result i = .ok (.done result) i := by
  rw [strStep, bind_of_ok (sees_at h _ _)]
  rfl

theorem strStep_plain {b : UInt8} (h : s.drop i = b :: t) (hquote : b ≠ 0x22)
    (hbackslash : b ≠ 0x5C) : strStep s result i = .ok (.next (result ++ [b])) (i + 1) := by
  have hpos : pos i = .ok i i := rfl
  rw [strStep, bind_of_ok (sees_at h _ _), if_pos (by simp [hquote]), bind_of_ok hpos,
    bind_of_ok (byteAt_here h i), if_neg hbackslash]
  rfl

/-- A backslash and the byte behind it. -/
theorem strStep_backslash {e : UInt8} (h : s.drop i = 0x5C :: e :: t) :
    strStep s result i = (if e = 0x75 then do
        match ← readU4 s with
        | none => do
          advance 1
          pure (.next (result ++ [0x5C, 0x75]))
        | some cp => do
          let cp ← lowHalf s cp
          pure (.next (appendUtf8 result cp))
      else pure (.next (result ++ [unescape e])) : Parser (Turn Bytes Bytes)) (i + 2) := by
  have hpos : pos i = .ok i i := rfl
  have hadvance (j : Nat) : advance 1 j = .ok () (j + 1) := rfl
  have hnext : s.drop (i + 1) = e :: t := drop_at (w := [0x5C]) h
  rw [strStep, bind_of_ok (sees_at h _ _), if_pos (by simp), bind_of_ok hpos,
    bind_of_ok (byteAt_here h i), if_pos rfl, bind_of_ok (hadvance i),
    bind_of_ok (sees_at hnext _ _), if_pos (by simp), bind_of_ok (byteAt_here hnext (i + 1))]
  exact bind_of_ok (hadvance (i + 1))

theorem unescape_of_mem {e b : UInt8} (h : (e, b) ∈ escapes) : e ≠ 0x75 ∧ unescape e = b := by
  simp only [escapes, List.mem_cons, Prod.mk.injEq, List.not_mem_nil, or_false] at h
  rcases h with ⟨rfl, rfl⟩ | ⟨rfl, rfl⟩ | ⟨rfl, rfl⟩ | ⟨rfl, rfl⟩ | ⟨rfl, rfl⟩ | ⟨rfl, rfl⟩ |
    ⟨rfl, rfl⟩ | ⟨rfl, rfl⟩ <;> exact ⟨by decide, by decide⟩

theorem strStep_escape {e b : UInt8} (h : s.drop i = 0x5C :: e :: t) (hmem : (e, b) ∈ escapes) :
    strStep s result i = .ok (.next (result ++ [b])) (i + 2) := by
  obtain ⟨hne, hval⟩ := unescape_of_mem hmem
  rw [strStep_backslash h, if_neg hne, hval]
  rfl

theorem strStep_code {a b c d : UInt8} {j k l m cp p : Nat}
    (h : s.drop i = 0x5C :: 0x75 :: a :: b :: c :: d :: t) (ha : HexDigit a j) (hb : HexDigit b k)
    (hc : HexDigit c l) (hd : HexDigit d m)
    (hlow : lowHalf s (((j * 16 + k) * 16 + l) * 16 + m) (i + 6) = .ok cp p) :
    strStep s result i = .ok (.next (appendUtf8 result cp)) p := by
  have hread : readU4 s (i + 2) = .ok (some (((j * 16 + k) * 16 + l) * 16 + m)) (i + 6) :=
    readU4_at (drop_at (w := [0x5C, 0x75]) h) ha hb hc hd
  rw [strStep_backslash h, if_pos rfl, bind_of_ok hread]
  dsimp only
  rw [bind_of_ok hlow]
  rfl

/-- What follows a part that is no code is no `\u`. -/
theorem not_code {us : List Piece} (h : Chars t us) (hus : ∀ cp, us.head? ≠ some (.code cp)) :
    ¬((t ++ 0x22 :: rest)[0]? = some 0x5C ∧ (t ++ 0x22 :: rest)[1]? = some 0x75) := by
  rintro ⟨hzero, hone⟩
  cases h with
  | nil => cases hzero
  | plain _ _ hbackslash _ =>
    rw [List.cons_append, List.getElem?_cons_zero, Option.some.injEq] at hzero
    exact hbackslash hzero
  | escape hmem _ =>
    have hu := Option.some.inj hone
    exact (unescape_of_mem hmem).1 hu
  | code => exact hus _ rfl

theorem isHigh_iff {cp : Nat} : isHigh cp = true ↔ 0xD800 ≤ cp ∧ cp ≤ 0xDBFF := by
  simp [isHigh]

theorem isLow_iff {cp : Nat} : isLow cp = true ↔ 0xDC00 ≤ cp ∧ cp ≤ 0xDFFF := by
  simp [isLow]

theorem combined_eq (hi lo : Nat) :
    combined hi lo = 0x10000 + (hi - 0xD800) * 0x400 + (lo - 0xDC00) := by
  have hshift (n : Nat) : n <<< 10 = n * 0x400 := Nat.shiftLeft_eq n 10
  unfold combined
  rw [hshift]

/-- A code that is no half of a pair. -/
theorem strStep_single {a b c d : UInt8} {j k l m : Nat}
    (h : s.drop i = 0x5C :: 0x75 :: a :: b :: c :: d :: t) (ha : HexDigit a j) (hb : HexDigit b k)
    (hc : HexDigit c l) (hd : HexDigit d m)
    (hlow : lowHalf s (((j * 16 + k) * 16 + l) * 16 + m) (i + 6) =
      .ok (((j * 16 + k) * 16 + l) * 16 + m) (i + 6)) :
    strStep s result i =
      .ok (.next (result ++ codeBytes (((j * 16 + k) * 16 + l) * 16 + m))) (i + 6) := by
  have hlt := hex_lt (hexval_of_hexDigit ha).2 (hexval_of_hexDigit hb).2
    (hexval_of_hexDigit hc).2 (hexval_of_hexDigit hd).2
  rw [strStep_code h ha hb hc hd hlow, appendUtf8_eq _ (Nat.lt_trans hlt (by decide))]

theorem length_code (a b c d : UInt8) (t : Bytes) (i : Nat) :
    i + (0x5C :: 0x75 :: a :: b :: c :: d :: t).length = i + 6 + t.length := by
  simp only [List.length_cons]
  omega

/-- The loop over a string appends what the string denotes. -/
theorem iterates_chars {us : List Piece} (hchars : Chars t us)
    (h : s.drop i = t ++ 0x22 :: rest) :
    Iterates (strStep s) result i (result ++ pieces us) (i + t.length) := by
  induction us using pieces.induct generalizing t i result with
  | case1 =>
    cases hchars
    rw [pieces, List.append_nil]
    exact .done (strStep_quote h)
  | case2 b us ih =>
    rw [pieces, List.append_cons]
    cases hchars with
    | @plain _ t _ hcontrol hquote hbackslash hrest =>
      have hlen : i + (b :: t).length = i + 1 + t.length := by
        rw [List.length_cons]
        omega
      rw [hlen]
      exact .next (strStep_plain h hquote hbackslash) (ih hrest (drop_at (w := [b]) h))
    | @escape e _ t _ hmem hrest =>
      have hlen : i + (0x5C :: e :: t).length = i + 2 + t.length := by
        rw [List.length_cons, List.length_cons]
        omega
      rw [hlen]
      exact .next (strStep_escape h hmem) (ih hrest (drop_at (w := [0x5C, e]) h))
  | case3 hi lo us hpair ih =>
    rw [pieces, if_pos hpair, ← List.append_assoc, ← combined_eq]
    cases hchars with
    | @code a b c d j k l m t _ ha hb hc hd hrest =>
      cases hrest with
      | @code a' b' c' d' j' k' l' m' t' _ ha' hb' hc' hd' hrest =>
        have hnext := drop_at (w := [0x5C, 0x75, a, b, c, d]) h
        have hlow := lowHalf_code (((j * 16 + k) * 16 + l) * 16 + m) hnext ha' hb' hc' hd'
        rw [if_pos ⟨isHigh_iff.mpr hpair.1, isLow_iff.mpr hpair.2⟩] at hlow
        have hstep : strStep s result i = _ := strStep_code h ha hb hc hd hlow
        rw [appendUtf8_eq _ (by rw [combined_eq]; omega)] at hstep
        rw [length_code, length_code]
        exact .next hstep (ih hrest (drop_at (w := [0x5C, 0x75, a', b', c', d']) hnext))
  | case4 hi lo us hpair ih =>
    rw [pieces, if_neg hpair, ← List.append_assoc]
    cases hchars with
    | @code a b c d j k l m t _ ha hb hc hd hrest =>
      have hnext := drop_at (w := [0x5C, 0x75, a, b, c, d]) h
      have hlow : lowHalf s (((j * 16 + k) * 16 + l) * 16 + m) (i + 6) =
          .ok (((j * 16 + k) * 16 + l) * 16 + m) (i + 6) := by
        cases hrest with
        | @code a' b' c' d' j' k' l' m' t' _ ha' hb' hc' hd' _ =>
          have hlow := lowHalf_code (((j * 16 + k) * 16 + l) * 16 + m) hnext ha' hb' hc' hd'
          rw [if_neg fun hall => hpair ⟨isHigh_iff.mp hall.1, isLow_iff.mp hall.2⟩] at hlow
          exact hlow
      rw [length_code]
      exact .next (strStep_single h ha hb hc hd hlow) (ih hrest hnext)
  | case5 cp us hus ih =>
    rw [pieces, ← List.append_assoc]
    · cases hchars with
      | @code a b c d j k l m t _ ha hb hc hd hrest =>
        have hnext := drop_at (w := [0x5C, 0x75, a, b, c, d]) h
        have hhead : ∀ cp, us.head? ≠ some (.code cp) := by
          intro cp hcp
          obtain ⟨us', hcons⟩ := List.head?_eq_some_iff.mp hcp
          exact hus cp us' hcons
        have hlow := lowHalf_alone (((j * 16 + k) * 16 + l) * 16 + m) hnext
          fun hall => not_code hrest hhead hall.2
        rw [length_code]
        exact .next (strStep_single h ha hb hc hd hlow) (ih hrest hnext)
    · exact hus

/-- A string is read up to its closing quote. -/
theorem decodeStr_at {us : List Piece} (hchars : Chars t us)
    (h : s.drop i = 0x22 :: t ++ 0x22 :: rest) :
    decodeStr s i = .ok (pieces us) (i + t.length + 2) := by
  have hloop : Iterates (strStep s) [] _ _ _ := iterates_chars hchars (drop_at (w := [0x22]) h)
  rw [List.nil_append, List.length_singleton] at hloop
  have hadvance (j : Nat) : advance 1 j = .ok () (j + 1) := rfl
  have hfinish := (strLoop_finishes s (i + 1)).ne_timeout
  rw [decodeStr, bind_of_ok (hadvance i), bind_of_ok (hloop.iterate hfinish),
    bind_of_ok (hadvance _), Nat.add_right_comm i 1]
  rfl

end Json

end Look
