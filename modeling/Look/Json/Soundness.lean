/-
A text of the grammar is decoded to what it denotes.

A value is read up to its end when no byte of a number follows, and in an array or an object
none does.  The loops over the elements and the members are followed on the grammar, with
the decoder of the elements as any function that reads them.
-/
import Look.Json.Strings

namespace Look

namespace Json

open Exec

variable {s t rest : Bytes} {i j : Nat}

/-- What follows is no part of a number. -/
def Follow (rest : Bytes) : Prop := rest[0]?.any isNumberByte = false

/-- `value` reads `t` as `v`, wherever it stands. -/
def Takes (s : Bytes) (value : Parser Data) (t : Bytes) (v : Data) : Prop :=
  ∀ i rest, s.drop i = t ++ rest → Follow rest → value i = .ok v (i + t.length)

/-- `t` begins with a byte that may be the first one of a value. -/
def Opens (t : Bytes) : Prop := ∃ c t', t = c :: t' ∧ isWs c = false ∧ c ≠ 0x5D

theorem Opens.noBlank (h : Opens t) : NoBlank (t ++ rest) := by
  obtain ⟨c, t', rfl, hws, -⟩ := h
  exact hws

theorem follow_blank {w : Bytes} (hw : Blank w) (hrest : Follow rest) : Follow (w ++ rest) := by
  cases w with
  | nil => exact hrest
  | cons b w =>
    rcases hw b List.mem_cons_self with rfl | rfl | rfl | rfl <;> rfl

/-! ## Separators -/

theorem skipIf_seen {c : UInt8} {p : UInt8 → Bool} (h : s.drop i = c :: t) (hc : p c = true) :
    skipIf s p i = .ok () (i + 1) := by
  rw [skipIf, bind_of_ok (sees_at h 0 p), if_pos (by simp [hc])]
  rfl

theorem skipIf_unseen {p : UInt8 → Bool} (h : s.drop i = t) (ht : t[0]?.any p = false) :
    skipIf s p i = .ok () i := by
  rw [skipIf, bind_of_ok (sees_at h 0 p), if_neg (by simp [ht])]
  rfl

/-- The separator is skipped with the white space before it. -/
theorem separator_seen {w : Bytes} {sep : UInt8} (hw : Blank w) (hsep : isWs sep = false)
    (h : s.drop i = w ++ sep :: rest) : separator s sep i = skipWs s (i + w.length + 1) := by
  have hskip := skipWs_at hw (show NoBlank (sep :: rest) from hsep) h
  rw [separator, bind_of_ok hskip, bind_of_ok (skipIf_seen (drop_at h) (by simp))]

theorem separator_unseen (sep : UInt8) {w : Bytes} (hw : Blank w) (hrest : NoBlank rest)
    (hsep : rest[0]? ≠ some sep) (h : s.drop i = w ++ rest) :
    separator s sep i = .ok () (i + w.length) := by
  have hnext : s.drop (i + w.length) = [] ++ rest := drop_at h
  have hnot : rest[0]?.any (· = sep) = false := by
    rw [Bool.eq_false_iff]
    intro hany
    obtain ⟨c, hc, hcsep⟩ := any_iff.mp hany
    exact hsep (hc.trans (congrArg some (of_decide_eq_true hcsep)))
  rw [separator, bind_of_ok (skipWs_at hw hrest h), bind_of_ok (skipIf_unseen hnext hnot)]
  exact skipWs_at (w := []) blank_nil hrest hnext

theorem le_of_skipWs (h : skipWs s i = .ok () j) : i ≤ j :=
  ((skipWs_finishes s i).of_ok h).1

/-! ## Loops over items -/

section Loops

variable {α β : Type} {step : β → Parser (Turn β β)} {add : β → α → β} {Q : Bytes → α → Prop}
  {stop : UInt8}

/-- A turn of the loop over `t`, which adds `a`, and over what comes behind it. -/
def Adds (s : Bytes) (step : β → Parser (Turn β β)) (add : β → α → β) (t : Bytes) (a : α) : Prop :=
  ∀ b i j rest, s.drop i = t ++ rest → Follow rest →
    separator s 0x2C (i + t.length) = .ok () j → i < j → step b i = .ok (.next (add b a)) j

/-- A loop over the items up to the closing bracket. -/
theorem iterates_items (hQ : ∀ t a, Q t a → Opens t ∧ Adds s step add t a)
    (hstop : ∀ b i rest, s.drop i = stop :: rest → step b i = .ok (.done b) i)
    (hbracket : stop = 0x5D ∨ stop = 0x7D) {body : Bytes} {as : List α} (hbody : Items Q body as)
    {b : β} (h : s.drop i = body ++ stop :: rest) :
    ∃ j, skipWs s i = .ok () j ∧ Iterates step b j (as.foldl add b) (i + body.length) := by
  have hstopWs : isWs stop = false := by rcases hbracket with rfl | rfl <;> rfl
  have hstopNumber : isNumberByte stop = false := by rcases hbracket with rfl | rfl <;> rfl
  have hstopComma : stop ≠ 0x2C := by rcases hbracket with rfl | rfl <;> decide
  have hpos {t : Bytes} (ht : Opens t) : 0 < t.length := by
    obtain ⟨c, t', rfl, -⟩ := ht
    exact Nat.succ_pos _
  induction hbody generalizing i b with
  | @one w t w' a hw ht hw' =>
    obtain ⟨hopens, hadds⟩ := hQ t a ht
    rw [List.append_assoc, List.append_assoc] at h
    have hitem := drop_at h
    have hafter := drop_at hitem
    have hsep := separator_unseen 0x2C hw' (show NoBlank (stop :: rest) from hstopWs)
      (by simpa using hstopComma) hafter
    have hstep := hadds b _ _ _ hitem (follow_blank hw' hstopNumber) hsep
      (by have := hpos hopens; omega)
    refine ⟨_, skipWs_at hw hopens.noBlank h, .next hstep ?_⟩
    rw [List.length_append, List.length_append, ← Nat.add_assoc, ← Nat.add_assoc]
    exact .done (hstop _ _ _ (drop_at hafter))
  | @cons w t w' a body as hw ht hw' _ ih =>
    obtain ⟨hopens, hadds⟩ := hQ t a ht
    simp only [List.append_assoc, List.cons_append] at h
    have hitem := drop_at h
    have hafter := drop_at hitem
    obtain ⟨j, hskip, hloop⟩ := ih (b := add b a) (drop_at (w := [0x2C]) (drop_at hafter))
    rw [List.length_singleton] at hskip hloop
    have hsep := separator_seen hw' rfl hafter
    rw [hskip] at hsep
    have hstep := hadds b _ _ _ hitem (follow_blank hw' rfl) hsep
      (Nat.lt_of_lt_of_le (by omega) (le_of_skipWs hskip))
    have hlen : i + (w ++ t ++ w' ++ 0x2C :: body).length =
        i + w.length + t.length + w'.length + 1 + body.length := by
      simp only [List.length_append, List.length_cons]
      omega
    refine ⟨_, skipWs_at hw hopens.noBlank h, .next hstep ?_⟩
    rw [hlen]
    exact hloop

end Loops

/-! ## Arrays and objects -/

section Containers

variable {value : Parser Data} {v : Data}

theorem adds_element (ht : Opens t) (hv : Takes s value t v) :
    Adds s (elementStep s value) (fun arr v => arr ++ [v]) t v := by
  intro arr i j rest h hfollow hsep hlt
  obtain ⟨c, t', rfl, -, hc⟩ := ht
  have hpos (k : Nat) : pos k = .ok k k := rfl
  rw [elementStep, bind_of_ok (sees_at h 0 _), if_pos (by simp [hc]), bind_of_ok (hpos i),
    bind_of_ok (hv i rest h hfollow), bind_of_ok hsep, bind_of_ok (hpos j),
    if_neg (Nat.ne_of_gt hlt)]
  rfl

theorem adds_member {k w w' : Bytes} {us : List Piece} (hk : Chars k us) (hw : Blank w)
    (hw' : Blank w') (ht : Opens t) (hv : Takes s value t v) :
    Adds s (memberStep s value) (fun arr p => AssocList.upsert p.1 p.2 arr)
      (0x22 :: k ++ 0x22 :: w ++ 0x3A :: w' ++ t) (pieces us, v) := by
  intro arr i j rest h hfollow hsep hlt
  have hpos (k : Nat) : pos k = .ok k k := rfl
  simp only [List.append_assoc, List.cons_append] at h
  have hkey := decodeStr_at hk h
  have hcolon : s.drop (i + k.length + 2) = w ++ 0x3A :: (w' ++ (t ++ rest)) := by
    have hquoted : s.drop i = (0x22 :: k ++ [0x22]) ++ (w ++ 0x3A :: (w' ++ (t ++ rest))) := by
      rw [h]
      simp
    have hdrop := drop_at hquoted
    rw [List.length_append, List.length_cons, List.length_singleton] at hdrop
    exact hdrop
  have hblank := drop_at (w := [0x3A]) (drop_at hcolon)
  rw [List.length_singleton] at hblank
  have hskip := skipWs_at hw' ht.noBlank hblank
  rw [← separator_seen hw rfl hcolon] at hskip
  have hvalue := hv _ rest (drop_at hblank) hfollow
  have hlen : i + (0x22 :: k ++ 0x22 :: w ++ 0x3A :: w' ++ t).length =
      i + k.length + 2 + w.length + 1 + w'.length + t.length := by
    simp only [List.length_append, List.length_cons]
    omega
  rw [hlen] at hsep
  rw [memberStep, bind_of_ok (sees_at h 0 _), if_pos (by simp), bind_of_ok (hpos i),
    bind_of_ok (byteAt_here h i), if_neg (by simp), bind_of_ok hkey, bind_of_ok hskip,
    bind_of_ok hvalue, bind_of_ok hsep, bind_of_ok (hpos j), if_neg (Nat.ne_of_gt hlt)]
  rfl

theorem elementStep_close {arr : List Data} (h : s.drop i = 0x5D :: t) :
    elementStep s value arr i = .ok (.done arr) i := by
  rw [elementStep, bind_of_ok (sees_at h 0 _)]
  rfl

theorem memberStep_close {arr : List (Bytes × Data)} (h : s.drop i = 0x7D :: t) :
    memberStep s value arr i = .ok (.done arr) i := by
  rw [memberStep, bind_of_ok (sees_at h 0 _)]
  rfl

theorem close_at {c : UInt8} (h : s.drop i = c :: t) : close s i = .ok () (i + 1) :=
  skipIf_seen h rfl

/-- A pair of brackets around nothing but white space, or around items. -/
theorem array_at {body : Bytes} {vs : List Data} {k : Nat}
    (hvalue : ∀ i, Finishes Forward value i fun _ _ => True) (hskip : skipWs s (i + 1) = .ok () j)
    (hloop : Iterates (elementStep s value) [] j vs k) (hclose : s.drop k = 0x5D :: rest)
    (hk : k = i + 1 + body.length) :
    array s value i = .ok (.array vs) (i + (0x5B :: body ++ [0x5D]).length) := by
  have hadvance : advance 1 i = .ok () (i + 1) := rfl
  have hlen : i + (0x5B :: body ++ [0x5D]).length = k + 1 := by
    rw [hk, List.length_append, List.length_cons, List.length_singleton]
    omega
  rw [array, bind_of_ok hadvance, bind_of_ok hskip,
    bind_of_ok (hloop.iterate (elementLoop_finishes hvalue j).ne_timeout),
    bind_of_ok (close_at hclose), hlen]
  rfl

theorem object_at {body : Bytes} {ps : List (Bytes × Data)} {k : Nat}
    (hvalue : ∀ i, Finishes Forward value i fun _ _ => True) (hskip : skipWs s (i + 1) = .ok () j)
    (hloop : Iterates (memberStep s value) [] j ps k) (hclose : s.drop k = 0x7D :: rest)
    (hk : k = i + 1 + body.length) :
    object s value i = .ok (Data.assoc ps) (i + (0x7B :: body ++ [0x7D]).length) := by
  have hadvance : advance 1 i = .ok () (i + 1) := rfl
  have hlen : i + (0x7B :: body ++ [0x7D]).length = k + 1 := by
    rw [hk, List.length_append, List.length_cons, List.length_singleton]
    omega
  rw [object, bind_of_ok hadvance, bind_of_ok hskip,
    bind_of_ok (hloop.iterate (memberLoop_finishes hvalue j).ne_timeout),
    bind_of_ok (close_at hclose), hlen]
  rfl

end Containers

/-! ## Numbers -/

theorem isDigit_ofNat {c : Char} (h : isDigitChar c) : isDigit (UInt8.ofNat c.toNat) = true := by
  obtain ⟨hle, hge⟩ := isDigitChar_iff.mp h
  have hval : (UInt8.ofNat c.toNat).toNat = c.toNat := by
    rw [UInt8.toNat_ofNat', Nat.mod_eq_of_lt (by omega)]
  simp only [isDigit, Bool.and_eq_true, decide_eq_true_eq, UInt8.le_iff_toNat_le, hval]
  exact ⟨hle, hge⟩

theorem not_float_of_isDigit {c : UInt8} (h : isDigit c = true) : isFloatByte c = false := by
  rw [Bool.eq_false_iff]
  intro hfloat
  simp only [isFloatByte, Bool.or_eq_true, decide_eq_true_eq] at hfloat
  rcases hfloat with (rfl | rfl) | rfl <;> cases h

theorem iterates_digits {w : Bytes} (hw : ∀ c ∈ w, isDigit c = true) (hfollow : Follow rest)
    (h : s.drop i = w ++ rest) : Iterates (numberStep s) false i false (i + w.length) := by
  induction w generalizing i with
  | nil =>
    rw [List.nil_append] at h
    refine .done ?_
    rw [numberStep, bind_of_ok (sees_at h 0 _), if_neg (by rw [hfollow]; decide)]
    rfl
  | cons c w ih =>
    rw [List.forall_mem_cons] at hw
    have hpos : pos i = .ok i i := rfl
    have hadvance : advance 1 i = .ok () (i + 1) := rfl
    have hlen : i + (c :: w).length = i + 1 + w.length := by
      rw [List.length_cons]
      omega
    rw [hlen]
    refine .next ?_ (ih hw.2 (drop_at (w := [c]) h))
    rw [numberStep, bind_of_ok (sees_at h 0 _), if_pos (by simp [isNumberByte, hw.1]),
      bind_of_ok hpos, bind_of_ok (byteAt_here h i), bind_of_ok hadvance,
      not_float_of_isDigit hw.1]
    rfl

/-- A numeral is a minus sign, if there is one, and digits. -/
theorem numeral_split (neg : Bool) {ds : List Char} (hdigits : ∀ d ∈ ds, isDigitChar d) :
    ∃ w, numeral neg ds = (if neg then [0x2D] else []) ++ w ∧ w.length = ds.length ∧
      ∀ c ∈ w, isDigit c = true := by
  refine ⟨ds.map fun c => UInt8.ofNat c.toNat, ?_, List.length_map _, ?_⟩
  · rw [numeral, List.map_append]
    cases neg <;> rfl
  · rw [List.forall_mem_map]
    exact fun d hd => isDigit_ofNat (hdigits d hd)

theorem numeral_head (neg : Bool) {ds : List Char} (hne : ds ≠ [])
    (hdigits : ∀ d ∈ ds, isDigitChar d) :
    ∃ b t, numeral neg ds = b :: t ∧ (b = 0x2D ∨ isDigit b = true) := by
  obtain ⟨w, hw, hlen, hdigit⟩ := numeral_split neg hdigits
  rw [hw]
  cases neg with
  | true => exact ⟨_, _, rfl, .inl rfl⟩
  | false =>
    cases w with
    | nil => exact absurd (List.length_eq_zero_iff.mp hlen.symm) hne
    | cons c w => exact ⟨c, w, rfl, .inr (hdigit c List.mem_cons_self)⟩

theorem numberLoop_at {w : Bytes} (hw : ∀ c ∈ w, isDigit c = true) (hfollow : Follow rest)
    (h : s.drop i = w ++ rest) :
    iterate (numberStep s) (turns s) false i = .ok false (i + w.length) :=
  (iterates_digits hw hfollow h).iterate (numberLoop_finishes s i).ne_timeout

/-- A numeral without its sign. -/
theorem drop_sign {neg : Bool} {ds : List Char} (hne : ds ≠ [])
    (hdigits : ∀ d ∈ ds, isDigitChar d) (h : s.drop i = numeral neg ds ++ rest) :
    ∃ b t w, s.drop i = b :: t ∧ s.drop (i + if b = 0x2D then 1 else 0) = w ++ rest ∧
      (∀ c ∈ w, isDigit c = true) ∧
      (i + if b = 0x2D then 1 else 0) + w.length = i + (numeral neg ds).length := by
  obtain ⟨w, hw, hlen, hdigit⟩ := numeral_split neg hdigits
  rw [hw] at h ⊢
  cases neg with
  | true =>
    refine ⟨0x2D, w ++ rest, w, h, drop_at (w := [0x2D]) h, hdigit, ?_⟩
    rw [if_pos rfl, if_pos rfl, List.length_append, List.length_singleton, Nat.add_assoc]
  | false =>
    obtain ⟨c, w', rfl⟩ : ∃ c w', w = c :: w' := by
      refine List.exists_cons_of_ne_nil fun hnil => hne (List.length_eq_zero_iff.mp ?_)
      rw [← hlen, hnil]
      rfl
    have hc : c ≠ 0x2D := by
      rintro rfl
      cases hdigit _ List.mem_cons_self
    refine ⟨c, w' ++ rest, c :: w', h, ?_, hdigit, ?_⟩
    · rw [if_neg hc]
      exact h
    · rw [if_neg hc]
      rfl

theorem take_ne {lit : Bytes} {n : Nat} {b c : UInt8} (h : s.drop i = b :: t)
    (hlit : lit.head? = some c) (hbc : b ≠ c) : (s.drop i).take n ≠ lit := by
  rintro rfl
  rw [h] at hlit
  cases n with
  | zero => cases hlit
  | succ n => exact hbc (Option.some.inj hlit)

theorem take_at {lit : Bytes} {n : Nat} (h : s.drop i = lit ++ rest) (hn : lit.length = n) :
    (s.drop i).take n = lit := by
  rw [h, ← hn, List.take_left]

theorem length_le_at {b : UInt8} (h : s.drop i = b :: t) : i ≤ s.length := by
  have := length_at h
  omega

section Values

variable [DoubleOps]

theorem numberValue_numeral {neg : Bool} {ds : List Char} (hne : ds ≠ [])
    (hdigits : ∀ d ∈ ds, isDigitChar d) :
    numberValue false (numeral neg ds) = integerValue neg ds := by
  have hno : ¬(numeral neg ds = [] ∨ numeral neg ds = [0x2D]) := by
    obtain ⟨w, hw, hlen, hdigit⟩ := numeral_split neg hdigits
    have hpos : w ≠ [] := fun h => hne (List.length_eq_zero_iff.mp (by rw [← hlen, h]; rfl))
    rw [hw]
    cases neg with
    | true => simp [hpos]
    | false =>
      rintro (h | h)
      · exact hpos h
      · have hminus := hdigit 0x2D (by
          have h : w = [0x2D] := h
          simp [h])
        cases hminus
  rw [numberValue, if_neg hno, if_neg Bool.false_ne_true, stoll_numeral hne hdigits, integerValue]
  dsimp only
  generalize (if neg = true then -(Nat.ofDigitChars 10 ds 0 : Int)
    else (Nat.ofDigitChars 10 ds 0 : Int)) = v
  by_cases hin : int64Min ≤ v ∧ v ≤ int64Max
  · rw [if_pos hin, if_neg (by simp [hin])]
  · rw [if_neg hin, if_pos (by simp only [Bool.or_eq_true, decide_eq_true_eq]; omega)]

/-- An integer is read up to the first byte that is none of a number. -/
theorem number_at {neg : Bool} {ds : List Char} (hne : ds ≠ [])
    (hdigits : ∀ d ∈ ds, isDigitChar d) (hfollow : Follow rest)
    (h : s.drop i = numeral neg ds ++ rest) :
    number s i = .ok (integerValue neg ds) (i + (numeral neg ds).length) := by
  have hpos (k : Nat) : pos k = .ok k k := rfl
  have hadvance (n k : Nat) : advance n k = .ok () (k + n) := rfl
  obtain ⟨b, t, w, hb, hdrop, hdigit, hlen⟩ := drop_sign hne hdigits h
  have hle : i ≤ s.length := by
    have := length_at hb
    omega
  rw [number, bind_of_ok (hpos i), bind_of_ok (byteAt_here hb i), bind_of_ok (hadvance _ i),
    bind_of_ok (numberLoop_at hdigit hfollow hdrop), hlen, bind_of_ok (hpos _),
    bind_of_ok (substr_apply hle _ _), Nat.add_sub_cancel_left, h, List.take_left,
    numberValue_numeral hne hdigits]
  rfl

/-! ## Values -/

/-- A numeral is none of the literals. -/
theorem scalar_integer {neg : Bool} {ds : List Char} {b : UInt8} (hne : ds ≠ [])
    (hdigits : ∀ d ∈ ds, isDigitChar d) (hfollow : Follow rest)
    (h : s.drop i = numeral neg ds ++ rest) (hb : s.drop i = b :: t)
    (hnumber : b = 0x2D ∨ isDigit b = true) :
    scalar s b i = .ok (integerValue neg ds) (i + (numeral neg ds).length) := by
  have hpos : pos i = .ok i i := rfl
  have hle := length_le_at hb
  have hletter : b ≠ 0x74 ∧ b ≠ 0x66 ∧ b ≠ 0x6E := by
    rcases hnumber with rfl | hdigit
    · decide
    · refine ⟨?_, ?_, ?_⟩ <;> (rintro rfl; cases hdigit)
  rw [scalar, bind_of_ok hpos, bind_of_ok (substr_apply hle 4 i),
    if_neg (take_ne hb rfl hletter.1), bind_of_ok (substr_apply hle 5 i),
    if_neg (take_ne hb rfl hletter.2.1), bind_of_ok (substr_apply hle 4 i),
    if_neg (take_ne hb rfl hletter.2.2), if_neg (by rcases hnumber with h | h <;> simp [h])]
  exact number_at hne hdigits hfollow h

theorem scalar_true (h : s.drop i = ascii "true" ++ rest) (c : UInt8) :
    scalar s c i = .ok (.bool true) (i + 4) := by
  have hpos : pos i = .ok i i := rfl
  have hle : i ≤ s.length := length_le_at h
  have htake : (s.drop i).take 4 = ascii "true" := take_at h rfl
  rw [scalar, bind_of_ok hpos, bind_of_ok (substr_apply hle 4 i), if_pos htake]
  rfl

theorem scalar_false (h : s.drop i = ascii "false" ++ rest) (c : UInt8) :
    scalar s c i = .ok (.bool false) (i + 5) := by
  have hpos : pos i = .ok i i := rfl
  have hle : i ≤ s.length := length_le_at h
  have htake : (s.drop i).take 5 = ascii "false" := take_at h rfl
  rw [scalar, bind_of_ok hpos, bind_of_ok (substr_apply hle 4 i),
    if_neg (take_ne (c := 0x74) h rfl (by decide)), bind_of_ok (substr_apply hle 5 i), if_pos htake]
  rfl

theorem scalar_null (h : s.drop i = ascii "null" ++ rest) (c : UInt8) :
    scalar s c i = .ok .none (i + 4) := by
  have hpos : pos i = .ok i i := rfl
  have hle : i ≤ s.length := length_le_at h
  have htake : (s.drop i).take 4 = ascii "null" := take_at h rfl
  rw [scalar, bind_of_ok hpos, bind_of_ok (substr_apply hle 4 i),
    if_neg (take_ne (c := 0x74) h rfl (by decide)), bind_of_ok (substr_apply hle 5 i),
    if_neg (take_ne (c := 0x66) h rfl (by decide)), bind_of_ok (substr_apply hle 4 i), if_pos htake]
  rfl

/-- The first byte of a value decides how it is read. -/
theorem decodeLevel_at {n : Nat} {c : UInt8} (h : s.drop i = c :: t) (hc : isWs c = false) :
    decodeLevel s (n + 1) i = (if c = 0x22 then do
        let str ← decodeStr s
        pure (.string str)
      else if c = 0x7B then object s (decodeLevel s n)
      else if c = 0x5B then array s (decodeLevel s n)
      else scalar s c : Parser Data) i := by
  have hpos : pos i = .ok i i := rfl
  have hno : NoBlank (c :: t) := hc
  have hskip : skipWs s i = .ok () i := skipWs_at (w := []) blank_nil hno h
  rw [decodeLevel, bind_of_ok hskip, bind_of_ok (sees_at h 0 _), if_pos (by simp), bind_of_ok hpos,
    bind_of_ok (byteAt_here h i)]

theorem takes_scalar {v : Data} (h : Scalar t v) (n : Nat) :
    Opens t ∧ Takes s (decodeLevel s (n + 1)) t v := by
  cases h with
  | null =>
    refine ⟨⟨_, _, rfl, rfl, by decide⟩, fun i rest h _ => ?_⟩
    rw [decodeLevel_at h rfl]
    exact scalar_null h _
  | true =>
    refine ⟨⟨_, _, rfl, rfl, by decide⟩, fun i rest h _ => ?_⟩
    rw [decodeLevel_at h rfl]
    exact scalar_true h _
  | false =>
    refine ⟨⟨_, _, rfl, rfl, by decide⟩, fun i rest h _ => ?_⟩
    rw [decodeLevel_at h rfl]
    exact scalar_false h _
  | @string t us hchars =>
    refine ⟨⟨_, _, rfl, rfl, by decide⟩, fun i rest h _ => ?_⟩
    have hlen : i + (0x22 :: t ++ [0x22]).length = i + t.length + 2 := by
      rw [List.length_append, List.length_cons, List.length_singleton]
      omega
    rw [List.append_assoc, List.singleton_append] at h
    rw [decodeLevel_at h rfl, if_pos rfl, bind_of_ok (decodeStr_at hchars h), hlen]
    rfl
  | integer neg hne hdigits _ =>
    obtain ⟨b, t, hhead, hb⟩ := numeral_head neg hne hdigits
    have hrange : isWs b = false ∧ b ≠ 0x5D ∧ b ≠ 0x22 ∧ b ≠ 0x7B ∧ b ≠ 0x5B := by
      rcases hb with rfl | hdigit
      · decide
      · refine ⟨?_, ?_, ?_, ?_, ?_⟩
        · rw [Bool.eq_false_iff]
          intro hws
          simp only [isWs, Bool.or_eq_true, decide_eq_true_eq] at hws
          rcases hws with ((rfl | rfl) | rfl) | rfl <;> cases hdigit
        all_goals
          rintro rfl
          cases hdigit
    refine ⟨⟨b, t, hhead, hrange.1, hrange.2.1⟩, fun i rest h hfollow => ?_⟩
    have hfirst : s.drop i = b :: (t ++ rest) := by
      rw [h, hhead]
      rfl
    rw [decodeLevel_at hfirst hrange.1, if_neg hrange.2.2.1, if_neg hrange.2.2.2.1,
      if_neg hrange.2.2.2.2]
    exact scalar_integer hne hdigits hfollow h hfirst hb

theorem takes_node {P : Bytes → Data → Prop} {n : Nat} {v : Data}
    (hP : ∀ t v, P t v → Opens t ∧ Takes s (decodeLevel s n) t v) (h : Node P t v) :
    Opens t ∧ Takes s (decodeLevel s (n + 1)) t v := by
  have hfinish := decodeLevel_finishes s n
  cases h with
  | scalar h => exact takes_scalar h n
  | @emptyArray w hw =>
    refine ⟨⟨_, _, rfl, rfl, by decide⟩, fun i rest h _ => ?_⟩
    rw [List.append_assoc, List.singleton_append] at h
    have hbody := drop_at (w := [0x5B]) h
    have hclose := drop_at hbody
    have hno : NoBlank (0x5D :: rest) := rfl
    rw [decodeLevel_at h rfl]
    exact array_at hfinish (skipWs_at hw hno hbody) (.done (elementStep_close hclose)) hclose rfl
  | @array body vs hitems =>
    refine ⟨⟨_, _, rfl, rfl, by decide⟩, fun i rest h _ => ?_⟩
    rw [List.append_assoc, List.singleton_append] at h
    have hbody := drop_at (w := [0x5B]) h
    obtain ⟨j, hskip, hloop⟩ := iterates_items (b := []) (fun t v ht =>
      have ⟨hopens, htakes⟩ := hP t v ht
      ⟨hopens, adds_element hopens htakes⟩) (fun _ _ _ => elementStep_close) (.inl rfl) hitems hbody
    rw [List.foldl_append_eq_append, List.nil_append, ← List.flatMap_def,
      List.flatMap_singleton'] at hloop
    rw [decodeLevel_at h rfl]
    exact array_at hfinish hskip hloop (drop_at hbody) rfl
  | @emptyObject w hw =>
    refine ⟨⟨_, _, rfl, rfl, by decide⟩, fun i rest h _ => ?_⟩
    rw [List.append_assoc, List.singleton_append] at h
    have hbody := drop_at (w := [0x7B]) h
    have hclose := drop_at hbody
    have hno : NoBlank (0x7D :: rest) := rfl
    rw [decodeLevel_at h rfl]
    exact object_at hfinish (skipWs_at hw hno hbody) (.done (memberStep_close hclose)) hclose rfl
  | @object body ps hitems =>
    refine ⟨⟨_, _, rfl, rfl, by decide⟩, fun i rest h _ => ?_⟩
    rw [List.append_assoc, List.singleton_append] at h
    have hbody := drop_at (w := [0x7B]) h
    have hmember : ∀ t p, Member P t p → Opens t ∧ Adds s (memberStep s (decodeLevel s n))
        (fun arr p => AssocList.upsert p.1 p.2 arr) t p := by
      rintro _ _ ⟨hk, hw, hw', hv⟩
      obtain ⟨hopens, htakes⟩ := hP _ _ hv
      exact ⟨⟨_, _, rfl, rfl, by decide⟩, adds_member hk hw hw' hopens htakes⟩
    obtain ⟨j, hskip, hloop⟩ := iterates_items (b := []) hmember (fun _ _ _ => memberStep_close)
      (.inr rfl) hitems hbody
    have hmerged : ps.foldl (fun arr p => AssocList.upsert p.1 p.2 arr) [] = merged ps :=
      AssocList.upsertAll_eq Data.none ps
    rw [hmerged] at hloop
    rw [decodeLevel_at h rfl]
    exact object_at hfinish hskip hloop (drop_at hbody) rfl

/-- A decoder with more levels left than the text is deep. -/
theorem takes_denotes {n m : Nat} {v : Data} (hle : n ≤ m) (h : Denotes n t v) :
    Opens t ∧ Takes s (decodeLevel s (m + 1)) t v := by
  induction n generalizing m t v with
  | zero => exact takes_scalar h m
  | succ n ih =>
    obtain ⟨m, rfl⟩ := Nat.exists_eq_add_of_lt hle
    exact takes_node (fun t v => ih (Nat.le_add_right n m)) h

theorem decodeLevel_blank {w : Bytes} {n : Nat} (hw : Blank w) (hrest : NoBlank rest)
    (h : s.drop i = w ++ rest) :
    decodeLevel s (n + 1) i = decodeLevel s (n + 1) (i + w.length) := by
  have hskip := skipWs_at (w := []) blank_nil hrest (drop_at h)
  rw [decodeLevel, bind_of_ok (skipWs_at hw hrest h), bind_of_ok hskip]
  rfl

/-- A text is decoded to what it denotes; what stands behind the value is not read. -/
theorem decodeValue_text {n : Nat} {v : Data} (hn : n ≤ maxDepth) (h : TextDenotes n s v) :
    ∃ j, decodeValue s 0 = .ok v j := by
  obtain ⟨w, t, w', hw, ht, hw', hs⟩ := h
  obtain ⟨hopens, htakes⟩ := takes_denotes (s := s) hn ht
  have hstart : s.drop 0 = w ++ (t ++ w') := by rw [List.drop_zero, hs, List.append_assoc]
  have hvalue := htakes _ w' (drop_at hstart) (by simpa using follow_blank hw' (show Follow [] from rfl))
  exact ⟨_, by rw [decodeValue, decodeLevel_blank hw hopens.noBlank hstart, hvalue]⟩

end Values

end Json

end Look
