/-
The functions of `string::` that count characters: `len`, `substr`, `reverse`, `index_of`, `split`
and `join`.

A text is a list of bytes.  The decoder makes U+FFFD of what is no UTF-8, and four bytes may give
more than the last character, so a code point is a number.  `utf8 cs` is the text of the characters
`cs`: these are the valid texts.
-/
import Mathlib.Algebra.Group.Int.Defs
import Mathlib.Algebra.Group.Nat.Defs
import Look.Json.Strings

namespace Look

namespace Strings

abbrev Bytes := List UInt8

/-- The text of the characters. -/
def utf8 (cs : List Char) : Bytes := cs.flatMap String.utf8EncodeChar

def replacement : Nat := 0xFFFD

/-- What the first byte of a character holds of it, and how many bytes follow. -/
def lead (c : UInt8) : Option (Nat × Nat) :=
  let c := c.toNat
  if c < 0x80 then some (c, 0)
  else if c >>> 5 = 0x6 then some (c &&& 0x1F, 1)
  else if c >>> 4 = 0xE then some (c &&& 0x0F, 2)
  else if c >>> 3 = 0x1E then some (c &&& 0x07, 3)
  else none

def isTail (c : UInt8) : Bool := c.toNat >>> 6 = 0x2

def addTail (cp : Nat) (c : UInt8) : Nat := cp <<< 6 ||| c.toNat &&& 0x3F

/-- `utf8_decode`, with `skip` bytes of the last character still to pass. -/
def decodeFrom : Nat → Bytes → List Nat
  | _, [] => []
  | skip + 1, _ :: s => decodeFrom skip s
  | 0, c :: s =>
    match lead c with
    | none => replacement :: decodeFrom 0 s
    | some (cp, more) =>
      if s.length < more then [replacement]
      else if (s.take more).all isTail then (s.take more).foldl addTail cp :: decodeFrom more s
      else replacement :: decodeFrom 0 s

def utf8Decode (s : Bytes) : List Nat := decodeFrom 0 s

/-- `utf8_encode_cp`. -/
def utf8EncodeCp (cp : Nat) (out : Bytes) : Bytes := Json.appendUtf8 out cp

def utf8Encode (cps : List Nat) : Bytes := cps.foldl (fun out cp => utf8EncodeCp cp out) []

def len (s : Bytes) : Nat := (utf8Decode s).length

/-- The slice that both ways of `substr` take, of the bytes or of the code points.  `none` is a call
without a count. -/
def clampedSlice {α : Type} (l : List α) (start : Int) (count : Option Int) : List α :=
  let n : Int := l.length
  let start := if start < 0 then max 0 (n + start) else start
  if n ≤ start then []
  else
    let count := count.getD (n - start)
    let count := if count < 0 then 0 else count
    let count := if n - start < count then n - start else count
    (l.drop start.toNat).take count.toNat

def isAscii (s : Bytes) : Bool := s.all (· < 0x80)

def substr (src : Bytes) (start : Int) (count : Option Int) : Bytes :=
  if isAscii src then clampedSlice src start count
  else utf8Encode (clampedSlice (utf8Decode src) start count)

def reverse (s : Bytes) : Bytes := utf8Encode (utf8Decode s).reverse

/-- `std::string::find` from the start. -/
def find (needle s : Bytes) : Option Nat :=
  if needle = [] then some 0 else (breakOn needle s).map fun (before, _) => before.length

/-- The cast to `int`. -/
def toInt32 (pos : Nat) : Int := (pos : Int).bmod (2 ^ 32)

def indexOf (s needle : Bytes) : Int :=
  match find needle s with
  | none => -1
  | some pos => toInt32 pos

/-- The pieces before the separators, as many as the limit allows, and the rest.  The separator is
`a :: w`. -/
def splitLoop (a : UInt8) (w : Bytes) (limit : Int) (count : Nat) (s : Bytes) : List Bytes :=
  match h : breakOn (a :: w) s with
  | none => [s]
  | some (before, after) =>
    if 0 < limit ∧ limit - 1 ≤ count then [s]
    else before :: splitLoop a w limit (count + 1) after
termination_by s.length
decreasing_by
  rw [breakOn_eq h, List.length_append, List.length_append, List.length_cons]
  omega

/-- `limit` is -1 where it is not given. -/
def split (s sep : Bytes) (limit : Int) : List Bytes :=
  match sep with
  | [] => s.map ([·])
  | a :: w => splitLoop a w limit 0 s

def join (arr : List Bytes) (sep : Bytes) : Bytes := sep.intercalate arr

/-! ## What they should give -/

/-- The index that a start stands for: a negative one counts from the end. -/
def fromIndex (n : Nat) (start : Int) : Nat := if start < 0 then (n + start).toNat else start.toNat

/-- What stands from `start` on, `count` long where it is given. -/
def slice {α : Type} (l : List α) (start : Int) : Option Int → List α
  | none => l.drop (fromIndex l.length start)
  | some count => (l.drop (fromIndex l.length start)).take count.toNat

/-! ## Characters -/

section Characters

variable {s : Bytes} {c : Char} {cs ds : List Char}

theorem utf8_cons (c : Char) (cs : List Char) :
    utf8 (c :: cs) = String.utf8EncodeChar c ++ utf8 cs := List.flatMap_cons

theorem utf8_append (cs ds : List Char) : utf8 (cs ++ ds) = utf8 cs ++ utf8 ds :=
  List.flatMap_append

theorem toNat_lt (c : Char) : c.toNat < 0x110000 := by
  rcases c.valid with h | ⟨-, h⟩
  · exact Nat.lt_trans h (by decide)
  · exact h

theorem toNat_ofNat {n : Nat} (h : n < 256) : (UInt8.ofNat n).toNat = n :=
  UInt8.toNat_ofNat_of_lt' h

theorem isTail_iff (c : UInt8) : isTail c = true ↔ 128 ≤ c.toNat ∧ c.toNat < 192 := by
  rw [isTail, decide_eq_true_eq, Nat.shiftRight_eq_div_pow]
  omega

theorem isTail_ofNat (r : Nat) : isTail (UInt8.ofNat (r % 64 + 0x80)) = true := by
  rw [isTail_iff, toNat_ofNat (by omega)]
  omega

theorem addTail_ofNat (cp r : Nat) :
    addTail cp (UInt8.ofNat (r % 64 + 0x80)) = cp * 64 + r % 64 := by
  have hlow : (r % 64 + 0x80) &&& 0x3F = r % 64 := by
    rw [Nat.and_two_pow_sub_one_eq_mod _ 6]
    omega
  rw [addTail, toNat_ofNat (by omega), hlow, ← Nat.shiftLeft_add_eq_or_of_lt (i := 6) (by omega),
    Nat.shiftLeft_eq]

theorem decodeFrom_append (t s : Bytes) : decodeFrom t.length (t ++ s) = decodeFrom 0 s := by
  induction t with
  | nil => rfl
  | cons c t ih => exact ih

/-- A first byte and as many bytes behind it as it says. -/
theorem decodeFrom_char {b : UInt8} {cp : Nat} {t : Bytes} (hb : lead b = some (cp, t.length))
    (ht : t.all isTail = true) (s : Bytes) :
    decodeFrom 0 (b :: (t ++ s)) = t.foldl addTail cp :: decodeFrom 0 s := by
  have hlen : ¬ (t ++ s).length < t.length := by
    rw [List.length_append]
    omega
  rw [decodeFrom, hb]
  simp only [if_neg hlen, List.take_left, if_pos ht, decodeFrom_append]

theorem lead_two (q : Nat) : lead (UInt8.ofNat (q % 32 + 0xC0)) = some (q % 32, 1) := by
  have hlow : (q % 32 + 0xC0) &&& 0x1F = q % 32 := by
    rw [Nat.and_two_pow_sub_one_eq_mod _ 5]
    omega
  rw [lead, toNat_ofNat (by omega), hlow, if_neg (by omega), Nat.shiftRight_eq_div_pow,
    if_pos (by omega)]

theorem lead_three (q : Nat) : lead (UInt8.ofNat (q % 16 + 0xE0)) = some (q % 16, 2) := by
  have hlow : (q % 16 + 0xE0) &&& 0x0F = q % 16 := by
    rw [Nat.and_two_pow_sub_one_eq_mod _ 4]
    omega
  rw [lead, toNat_ofNat (by omega), hlow, if_neg (by omega), Nat.shiftRight_eq_div_pow,
    if_neg (by omega), Nat.shiftRight_eq_div_pow, if_pos (by omega)]

theorem lead_four (q : Nat) : lead (UInt8.ofNat (q % 8 + 0xF0)) = some (q % 8, 3) := by
  have hlow : (q % 8 + 0xF0) &&& 0x07 = q % 8 := by
    rw [Nat.and_two_pow_sub_one_eq_mod _ 3]
    omega
  rw [lead, toNat_ofNat (by omega), hlow, if_neg (by omega), Nat.shiftRight_eq_div_pow,
    if_neg (by omega), Nat.shiftRight_eq_div_pow, if_neg (by omega), Nat.shiftRight_eq_div_pow,
    if_pos (by omega)]

theorem lead_one {n : Nat} (h : n ≤ 127) : lead (UInt8.ofNat n) = some (n, 0) := by
  rw [lead, toNat_ofNat (by omega), if_pos (by omega)]

/-- A character is read back. -/
theorem decodeFrom_utf8EncodeChar (c : Char) (s : Bytes) :
    decodeFrom 0 (String.utf8EncodeChar c ++ s) = c.toNat :: decodeFrom 0 s := by
  have hlt := toNat_lt c
  have hval : c.val.toNat = c.toNat := rfl
  rw [String.utf8EncodeChar, hval]
  generalize c.toNat = n at hlt
  by_cases h1 : n ≤ 0x7f
  · rw [if_pos h1]
    exact decodeFrom_char (lead_one h1) rfl s
  rw [if_neg h1]
  by_cases h2 : n ≤ 0x7ff
  · rw [if_pos h2]
    refine (decodeFrom_char (lead_two _) ?_ s).trans ?_
    · simp only [List.all_cons, List.all_nil, isTail_ofNat, Bool.and_self]
    · rw [List.foldl_cons, List.foldl_nil, addTail_ofNat]
      congr 1
      omega
  rw [if_neg h2]
  by_cases h3 : n ≤ 0xffff
  · rw [if_pos h3]
    refine (decodeFrom_char (lead_three _) ?_ s).trans ?_
    · simp only [List.all_cons, List.all_nil, isTail_ofNat, Bool.and_self]
    · rw [List.foldl_cons, List.foldl_cons, List.foldl_nil, addTail_ofNat, addTail_ofNat]
      congr 1
      omega
  · rw [if_neg h3]
    refine (decodeFrom_char (lead_four _) ?_ s).trans ?_
    · simp only [List.all_cons, List.all_nil, isTail_ofNat, Bool.and_self]
    · rw [List.foldl_cons, List.foldl_cons, List.foldl_cons, List.foldl_nil, addTail_ofNat,
        addTail_ofNat, addTail_ofNat]
      congr 1
      omega

theorem decodeFrom_utf8 (cs : List Char) (s : Bytes) :
    decodeFrom 0 (utf8 cs ++ s) = cs.map Char.toNat ++ decodeFrom 0 s := by
  induction cs with
  | nil => rfl
  | cons c cs ih =>
    rw [utf8_cons, List.append_assoc, decodeFrom_utf8EncodeChar, ih, List.map_cons,
      List.cons_append]

theorem utf8Decode_utf8 (cs : List Char) : utf8Decode (utf8 cs) = cs.map Char.toNat := by
  have hcs := decodeFrom_utf8 cs []
  rwa [List.append_nil, decodeFrom, List.append_nil] at hcs

theorem len_utf8 (cs : List Char) : len (utf8 cs) = cs.length := by
  rw [len, utf8Decode_utf8, List.length_map]

theorem utf8EncodeCp_toNat (c : Char) (out : Bytes) :
    utf8EncodeCp c.toNat out = out ++ String.utf8EncodeChar c := by
  have hpair : ¬ (0xD800 ≤ c.toNat ∧ c.toNat ≤ 0xDFFF) := by
    rintro ⟨hlow, hhigh⟩
    rcases c.valid with h | ⟨h, -⟩
    · exact absurd h (Nat.not_lt.mpr hlow)
    · exact absurd h (Nat.not_lt.mpr hhigh)
  rw [utf8EncodeCp, Json.appendUtf8_eq out (toNat_lt c), Json.codeBytes, if_neg hpair,
    Char.ofNat_toNat]

theorem utf8Encode_map (cs : List Char) : utf8Encode (cs.map Char.toNat) = utf8 cs := by
  have hfold : ∀ out : Bytes,
      (cs.map Char.toNat).foldl (fun out cp => utf8EncodeCp cp out) out = out ++ utf8 cs := by
    induction cs with
    | nil => exact fun out => (List.append_nil out).symm
    | cons c cs ih =>
      intro out
      rw [List.map_cons, List.foldl_cons, ih, utf8EncodeCp_toNat, utf8_cons, List.append_assoc]
  exact hfold []

end Characters

/-! ## Slices -/

section Slices

variable {α β : Type} {l : List α} {s : Bytes} {cs : List Char} {start : Int} {count : Option Int}

/-- The clamps of the code change nothing. -/
theorem clampedSlice_eq (l : List α) (start : Int) (count : Option Int) :
    clampedSlice l start count = slice l start count := by
  have hfrom : fromIndex l.length start =
      (if start < 0 then max 0 (l.length + start) else start).toNat := by
    rw [fromIndex]
    split <;> omega
  have hnonneg : 0 ≤ if start < 0 then max 0 (l.length + start) else start := by
    split <;> omega
  rw [clampedSlice]
  generalize (if start < 0 then max 0 ((l.length : Int) + start) else start) = i at hfrom hnonneg ⊢
  by_cases hi : (l.length : Int) ≤ i
  · have hnil : l.drop i.toNat = [] := List.drop_eq_nil_of_le (by omega)
    rw [if_pos hi]
    cases count with
    | none => rw [slice, hfrom, hnil]
    | some c => rw [slice, hfrom, hnil, List.take_nil]
  · have hlen : (l.drop i.toNat).length = l.length - i.toNat := List.length_drop
    rw [if_neg hi]
    cases count with
    | none =>
      rw [slice, hfrom]
      refine List.take_of_length_le ?_
      rw [hlen, Option.getD_none]
      split <;> omega
    | some c =>
      rw [slice, hfrom]
      refine List.take_eq_take_iff.mpr ?_
      rw [hlen, Option.getD_some]
      split <;> split <;> omega

theorem slice_map (f : α → β) (l : List α) (start : Int) (count : Option Int) :
    slice (l.map f) start count = (slice l start count).map f := by
  cases count with
  | none => rw [slice, slice, List.length_map, List.map_drop]
  | some c => rw [slice, slice, List.length_map, List.map_take, List.map_drop]

theorem decodeFrom_ascii (h : isAscii s = true) (t : Bytes) :
    decodeFrom 0 (s ++ t) = s.map UInt8.toNat ++ decodeFrom 0 t := by
  induction s with
  | nil => rfl
  | cons c s ih =>
    rw [isAscii, List.all_cons, Bool.and_eq_true, decide_eq_true_eq] at h
    have hlt : c.toNat < 128 := UInt8.lt_iff_toNat_lt.mp h.1
    have hlead : lead c = some (c.toNat, 0) := by rw [lead, if_pos hlt]
    rw [List.map_cons, List.cons_append, List.cons_append, ← ih h.2]
    exact decodeFrom_char (t := []) hlead rfl (s ++ t)

theorem utf8Decode_ascii (h : isAscii s = true) : utf8Decode s = s.map UInt8.toNat := by
  have hs := decodeFrom_ascii h []
  rwa [List.append_nil, decodeFrom, List.append_nil] at hs

theorem utf8Encode_ascii (h : isAscii s = true) : utf8Encode (s.map UInt8.toNat) = s := by
  have hfold : ∀ out : Bytes,
      (s.map UInt8.toNat).foldl (fun out cp => utf8EncodeCp cp out) out = out ++ s := by
    induction s with
    | nil => exact fun out => (List.append_nil out).symm
    | cons c s ih =>
      intro out
      rw [isAscii, List.all_cons, Bool.and_eq_true, decide_eq_true_eq] at h
      have hlt : c.toNat < 128 := UInt8.lt_iff_toNat_lt.mp h.1
      rw [List.map_cons, List.foldl_cons, ih h.2, utf8EncodeCp, Json.appendUtf8, if_pos hlt,
        List.append_assoc]
      exact congrArg (fun b => out ++ b :: s) UInt8.ofNat_toNat
  exact hfold []

theorem isAscii_slice (h : isAscii s = true) : isAscii (slice s start count) = true := by
  rw [isAscii, List.all_eq_true] at h ⊢
  intro c hc
  refine h c ?_
  cases count with
  | none => exact List.mem_of_mem_drop hc
  | some n => exact List.mem_of_mem_drop (List.mem_of_mem_take hc)

/-- Where there are single bytes only, both ways give the same. -/
theorem substr_ways (h : isAscii s = true) (start : Int) (count : Option Int) :
    clampedSlice s start count = utf8Encode (clampedSlice (utf8Decode s) start count) := by
  rw [utf8Decode_ascii h, clampedSlice_eq, clampedSlice_eq, slice_map,
    utf8Encode_ascii (isAscii_slice h)]

theorem substr_utf8 (cs : List Char) (start : Int) (count : Option Int) :
    substr (utf8 cs) start count = utf8 (slice cs start count) := by
  have hgeneral : substr (utf8 cs) start count =
      utf8Encode (clampedSlice (utf8Decode (utf8 cs)) start count) := by
    rw [substr]
    split
    · rename_i h
      exact substr_ways h start count
    · rfl
  rw [hgeneral, utf8Decode_utf8, clampedSlice_eq, slice_map, utf8Encode_map]

theorem reverse_utf8 (cs : List Char) : reverse (utf8 cs) = utf8 cs.reverse := by
  rw [reverse, utf8Decode_utf8, ← List.map_reverse, utf8Encode_map]

end Slices

/-! ## Pieces -/

theorem join_chars (s : Bytes) : join (s.map ([·])) [] = s := by
  induction s with
  | nil => rfl
  | cons c s ih =>
    cases s with
    | nil => rfl
    | cons d s =>
      rw [join, List.map_cons] at ih
      rw [List.map_cons, List.map_cons, join, List.intercalate_cons_cons, ih]
      rfl

theorem splitLoop_ne_nil (a : UInt8) (w : Bytes) (limit : Int) (count : Nat) (s : Bytes) :
    splitLoop a w limit count s ≠ [] := by
  rw [splitLoop]
  split
  · exact List.cons_ne_nil _ _
  · split
    · exact List.cons_ne_nil _ _
    · exact List.cons_ne_nil _ _

theorem join_splitLoop (a : UInt8) (w : Bytes) (limit : Int) (count : Nat) (s : Bytes) :
    join (splitLoop a w limit count s) (a :: w) = s := by
  fun_induction splitLoop a w limit count s with
  | case1 count s h => exact List.intercalate_singleton
  | case2 count s before after h hstop => exact List.intercalate_singleton
  | case3 count s before after h hgo ih =>
    rw [join, List.intercalate_cons_of_ne_nil (splitLoop_ne_nil a w limit _ after), ← join, ih,
      breakOn_eq h, List.append_assoc]

theorem join_split (s sep : Bytes) (limit : Int) : join (split s sep limit) sep = s := by
  cases sep with
  | nil => exact join_chars s
  | cons a w => exact join_splitLoop a w limit 0 s

/-! ## Positions -/

section Positions

variable {s before needle after : Bytes} {cs ds : List Char}

/-- The needle stands behind `before`, and nowhere earlier. -/
def FirstAt (s before needle : Bytes) : Prop :=
  before ++ needle <+: s ∧ ∀ x, x ++ needle <+: s → before.length ≤ x.length

theorem find_first (h : FirstAt s before needle) : find needle s = some before.length := by
  obtain ⟨⟨after, hs⟩, hfirst⟩ := h
  rw [find]
  by_cases hneedle : needle = []
  · have hzero : before.length ≤ 0 := hfirst [] (by rw [hneedle]; exact List.nil_prefix)
    rw [if_pos hneedle, Nat.le_zero.mp hzero]
  · rw [if_neg hneedle, breakOn_of_first hneedle hs.symm fun x y hxy => hfirst x ⟨y, hxy.symm⟩]
    rfl

theorem substr_len (cs ds : List Char) (start : Int) :
    substr (utf8 cs) start (some (len (utf8 ds))) =
      utf8 ((cs.drop (fromIndex cs.length start)).take ds.length) := by
  rw [substr_utf8, len_utf8, slice, Int.toNat_natCast]

/-- The needle is cut out where its characters stand, and only there. -/
theorem substr_indexOf_iff (h : FirstAt (utf8 cs) before needle) :
    substr (utf8 cs) (indexOf (utf8 cs) needle) (some (len needle)) = needle ↔
      ∃ ds, needle = utf8 ds ∧
        ds <+: cs.drop (fromIndex cs.length (toInt32 before.length)) := by
  rw [indexOf, find_first h]
  constructor
  · intro hcut
    refine ⟨slice cs (toInt32 before.length) (some (len needle)), ?_, ?_⟩
    · rw [← substr_utf8]
      exact hcut.symm
    · exact List.take_prefix _ _
  · rintro ⟨ds, rfl, hds⟩
    exact (substr_len cs ds _).trans (congrArg utf8 (List.prefix_iff_eq_take.mp hds).symm)

theorem toInt32_of_lt {n : Nat} (h : n < 2 ^ 31) : toInt32 n = n := by
  have hlow : -(((2 ^ 32 : Nat) : Int) / 2) ≤ n := by omega
  exact Int.bmod_eq_of_le hlow (by omega)

/-- Behind single bytes the characters of the needle stand where its bytes do. -/
theorem prefix_of_ascii (hbefore : isAscii before = true) (hstands : before ++ utf8 ds <+: utf8 cs)
    (hlt : before.length < 2 ^ 31) :
    ds <+: cs.drop (fromIndex cs.length (toInt32 before.length)) := by
  have hindex : fromIndex cs.length (toInt32 before.length) = before.length := by
    rw [toInt32_of_lt hlt]
    exact if_neg (Int.not_lt.mpr (Int.natCast_nonneg _))
  obtain ⟨after, hs⟩ := hstands
  have hcodes : cs.map Char.toNat =
      before.map UInt8.toNat ++ (ds.map Char.toNat ++ decodeFrom 0 after) := by
    rw [← utf8Decode_utf8, ← hs, List.append_assoc, utf8Decode, decodeFrom_ascii hbefore,
      decodeFrom_utf8]
  have hdrop : ds.map Char.toNat <+: (cs.drop before.length).map Char.toNat := by
    rw [List.map_drop, hcodes]
    refine ⟨decodeFrom 0 after, ?_⟩
    exact (List.drop_left' (List.length_map UInt8.toNat)).symm
  rw [hindex]
  exact (List.prefix_map_iff_of_injective fun c d h => Char.toNat_inj.mp h).mp hdrop

end Positions

/-- What the functions do with the characters of a text.  A needle is cut out by its position and
its length where its characters stand at as many characters as there are bytes before it. -/
theorem codePoints_iff (cs ds : List Char) (start : Int) (count : Option Int)
    (sep before needle : Bytes) (h : FirstAt (utf8 cs) before needle) :
    utf8Encode (utf8Decode (utf8 cs)) = utf8 cs ∧
      substr (utf8 cs) start count = utf8 (slice cs start count) ∧
      (isAscii (utf8 cs) = true → clampedSlice (utf8 cs) start count =
        utf8Encode (clampedSlice (utf8Decode (utf8 cs)) start count)) ∧
      len (utf8 cs ++ utf8 ds) = len (utf8 cs) + len (utf8 ds) ∧
      reverse (reverse (utf8 cs)) = utf8 cs ∧
      join (split (utf8 cs) sep (-1)) sep = utf8 cs ∧
      (substr (utf8 cs) (indexOf (utf8 cs) needle) (some (len needle)) = needle ↔
        ∃ ds, needle = utf8 ds ∧
          ds <+: cs.drop (fromIndex cs.length (toInt32 before.length))) := by
  refine ⟨?_, substr_utf8 cs start count, fun hascii => substr_ways hascii start count, ?_, ?_,
    join_split _ sep (-1), substr_indexOf_iff h⟩
  · rw [utf8Decode_utf8, utf8Encode_map]
  · rw [← utf8_append, len_utf8, len_utf8, len_utf8, List.length_append]
  · rw [reverse_utf8, reverse_utf8, List.reverse_reverse]

/-- The second of two letters. -/
theorem codePoints_second :
    substr (utf8 ['a', 'b']) (indexOf (utf8 ['a', 'b']) (utf8 ['b'])) (some (len (utf8 ['b']))) =
      utf8 ['b'] := by
  have hfirst : FirstAt (utf8 ['a', 'b']) [0x61] (utf8 ['b']) := by
    refine ⟨⟨[], rfl⟩, fun x hx => Nat.one_le_iff_ne_zero.mpr fun hnil => ?_⟩
    obtain rfl := List.length_eq_zero_iff.mp hnil
    exact absurd hx (by decide)
  have hcut := (codePoints_iff ['a', 'b'] [] 0 none [] [0x61] (utf8 ['b']) hfirst).2.2.2.2.2.2
  exact hcut.mpr ⟨['b'], rfl, prefix_of_ascii rfl hfirst.1 (by decide)⟩

/-- Behind a character of two bytes a letter is not found by its position. -/
theorem letter_missed :
    utf8 ['b'] <:+: utf8 ['é', 'b'] ∧
      substr (utf8 ['é', 'b']) (indexOf (utf8 ['é', 'b']) (utf8 ['b'])) (some (len (utf8 ['b']))) ≠
        utf8 ['b'] := by
  decide

end Strings

end Look
