/-
Escaping for the string literals of MySQL.

`escape` writes a quote twice and a backslash before the other bytes that MySQL reads as
something else.  The lexer reads a literal character by character, and what a backslash means
depends on the mode of the session.  `escape_reads` says that in both modes the lexer ends the
literal at the quote that was put behind it.
-/
import Look.Mysql.Wire

namespace Look

namespace Mysql

def quote : UInt8 := 39
def backslash : UInt8 := 92

/-- A turn of the loop in `MySQLClient::escape`. -/
def escapeByte (c : UInt8) : Bytes :=
  if c = 39 then [39, 39]
  else if c = 34 then [92, 34]
  else if c = 92 then [92, 92]
  else if c = 10 then [92, 110]
  else if c = 13 then [92, 114]
  else if c = 0 then [92, 48]
  else [c]

/-- `MySQLClient::escape`. -/
def escape (s : Bytes) : Bytes := s.flatMap escapeByte

/-! ## How MySQL reads a literal -/

/-- A character set in which the bytes below 128 are ASCII and stand for themselves. -/
structure Charset where
  /-- The length of the character that comes first, when it has more than one byte. -/
  wide : Bytes → Nat
  high : ∀ s : Bytes, ∀ b ∈ s.take (wide s), 128 ≤ b

/-- One byte for each character. -/
def Charset.singleByte : Charset where
  wide _ := 0
  high := nofun

def isContinuation (b : UInt8) : Bool := 0x80 ≤ b && b ≤ 0xBF

/-- The well-formed characters of UTF-8 with more than one byte. -/
def utf8Wide : Bytes → Nat
  | a :: b :: rest =>
    if 0xC2 ≤ a ∧ a ≤ 0xDF ∧ isContinuation b then 2
    else match rest with
      | c :: rest' =>
        if 0xE0 ≤ a ∧ a ≤ 0xEF ∧ isContinuation b ∧ isContinuation c ∧ (a = 0xE0 → 0xA0 ≤ b) ∧
            (a = 0xED → b ≤ 0x9F) then 3
        else match rest' with
          | d :: _ =>
            if 0xF0 ≤ a ∧ a ≤ 0xF4 ∧ isContinuation b ∧ isContinuation c ∧ isContinuation d ∧
                (a = 0xF0 → 0x90 ≤ b) ∧ (a = 0xF4 → b ≤ 0x8F) then 4
            else 0
          | [] => 0
      | [] => 0
  | _ => 0

theorem utf8Wide_high (s : Bytes) : ∀ b ∈ s.take (utf8Wide s), 128 ≤ b := by
  have hcont : ∀ b, isContinuation b = true → 128 ≤ b := by
    intro b hb
    rw [isContinuation, Bool.and_eq_true, decide_eq_true_iff] at hb
    exact hb.1
  have hlead : ∀ a m : UInt8, 128 ≤ m → m ≤ a → 128 ≤ a := fun _ _ => UInt8.le_trans
  unfold utf8Wide
  split
  · split
    · rename_i h
      simp only [List.take_succ_cons, List.take_zero, List.forall_mem_cons]
      exact ⟨hlead _ _ (by decide) h.1, hcont _ h.2.2, nofun⟩
    · split
      · split
        · rename_i h
          simp only [List.take_succ_cons, List.take_zero, List.forall_mem_cons]
          exact ⟨hlead _ _ (by decide) h.1, hcont _ h.2.2.1, hcont _ h.2.2.2.1, nofun⟩
        · split
          · split
            · rename_i h
              simp only [List.take_succ_cons, List.take_zero, List.forall_mem_cons]
              exact ⟨hlead _ _ (by decide) h.1, hcont _ h.2.2.1, hcont _ h.2.2.2.1,
                hcont _ h.2.2.2.2.1, nofun⟩
            · exact nofun
          · exact nofun
      · exact nofun
  · exact nofun

def Charset.utf8 : Charset := ⟨utf8Wide, utf8Wide_high⟩

/-- What a backslash and a byte stand for. -/
def unescaped (d : UInt8) : Bytes :=
  if d = 110 then [10]
  else if d = 116 then [9]
  else if d = 114 then [13]
  else if d = 98 then [8]
  else if d = 48 then [0]
  else if d = 90 then [26]
  else if d = 95 ∨ d = 37 then [92, d]
  else [d]

/-- More at the front of a value. -/
def withFront (v : Bytes) (r : Option (Bytes × Bytes)) : Option (Bytes × Bytes) :=
  r.map fun (x, rest) => (v ++ x, rest)

/-- Where the lexer is in a literal. -/
inductive Place where
  /-- So many bytes of a character are still to come. -/
  | inside (skip : Nat)
  | afterBackslash
  | afterQuote

/-- A literal behind its opening quote: its value and what follows its closing quote. -/
def readLiteral (cs : Charset) (noBackslashEscapes : Bool) :
    Place → Bytes → Option (Bytes × Bytes)
  | .inside (skip + 1), c :: rest =>
    withFront [c] (readLiteral cs noBackslashEscapes (.inside skip) rest)
  | .inside 0, c :: rest =>
    if 0 < cs.wide (c :: rest) then
      withFront [c] (readLiteral cs noBackslashEscapes (.inside (cs.wide (c :: rest) - 1)) rest)
    else if c = backslash ∧ noBackslashEscapes = false then
      readLiteral cs noBackslashEscapes .afterBackslash rest
    else if c = quote then readLiteral cs noBackslashEscapes .afterQuote rest
    else withFront [c] (readLiteral cs noBackslashEscapes (.inside 0) rest)
  | .afterBackslash, d :: rest =>
    withFront (unescaped d) (readLiteral cs noBackslashEscapes (.inside 0) rest)
  | .afterQuote, d :: rest =>
    if d = quote then withFront [quote] (readLiteral cs noBackslashEscapes (.inside 0) rest)
    else some ([], d :: rest)
  | .afterQuote, [] => some ([], [])
  | _, [] => none

section Reading

variable {cs : Charset} {nbe : Bool} {c : UInt8} {rest : Bytes}

theorem wide_ascii (h : c < 128) : cs.wide (c :: rest) = 0 := by
  cases hw : cs.wide (c :: rest) with
  | zero => rfl
  | succ n =>
    have hc := cs.high (c :: rest) c (by rw [hw]; exact List.mem_cons_self)
    exact absurd h (UInt8.not_lt.mpr hc)

theorem readLiteral_plain (hc : c < 128) (hquote : c ≠ quote)
    (hslash : c = backslash → nbe = true) :
    readLiteral cs nbe (.inside 0) (c :: rest) =
      withFront [c] (readLiteral cs nbe (.inside 0) rest) := by
  rw [readLiteral, wide_ascii hc, if_neg (Nat.lt_irrefl 0), if_neg hquote, if_neg]
  rintro ⟨h, h'⟩
  rw [hslash h] at h'
  cases h'

theorem readLiteral_escaped (d : UInt8) :
    readLiteral cs false (.inside 0) (backslash :: d :: rest) =
      withFront (unescaped d) (readLiteral cs false (.inside 0) rest) := by
  rw [readLiteral, wide_ascii (by decide), if_neg (Nat.lt_irrefl 0), if_pos ⟨rfl, rfl⟩, readLiteral]

theorem readLiteral_quote :
    readLiteral cs nbe (.inside 0) (quote :: rest) = readLiteral cs nbe .afterQuote rest := by
  rw [readLiteral, wide_ascii (by decide), if_neg (Nat.lt_irrefl 0),
    if_neg fun h => absurd h.1 (by decide), if_pos rfl]

theorem readLiteral_quotes :
    readLiteral cs nbe (.inside 0) (quote :: quote :: rest) =
      withFront [quote] (readLiteral cs nbe (.inside 0) rest) := by
  rw [readLiteral_quote, readLiteral, if_pos rfl]

theorem readLiteral_close (h : rest.head? ≠ some quote) :
    readLiteral cs nbe (.inside 0) (quote :: rest) = some ([], rest) := by
  rw [readLiteral_quote]
  cases rest with
  | nil => rfl
  | cons d rest => exact if_neg fun hd => h (congrArg some hd)

theorem withFront_withFront (u v : Bytes) (r : Option (Bytes × Bytes)) :
    withFront u (withFront v r) = withFront (u ++ v) r := by
  cases r with
  | none => rfl
  | some p => simp [withFront]

end Reading

/-! ## What is read of an escaped text -/

/-- The value of the literal: without escapes every byte but the quote is as it was written. -/
def literalValue (noBackslashEscapes : Bool) (s : Bytes) : Bytes :=
  if noBackslashEscapes then s.flatMap fun c => if c = quote then [c] else escapeByte c else s

theorem literalValue_cons (nbe : Bool) (c : UInt8) (s : Bytes) :
    literalValue nbe (c :: s) = literalValue nbe [c] ++ literalValue nbe s := by
  cases nbe with
  | false => rfl
  | true => simp [literalValue]

section Escaped

variable {cs : Charset} {nbe : Bool} {c : UInt8} {s rest after : Bytes}

theorem escapeByte_high (h : 128 ≤ c) : escapeByte c = [c] := by
  have hne : ∀ d : UInt8, d < 128 → c ≠ d := fun d hd hc => absurd (hc ▸ h) (UInt8.not_le.mpr hd)
  simp only [escapeByte, hne _ (show (39 : UInt8) < 128 by decide),
    hne _ (show (34 : UInt8) < 128 by decide), hne _ (show (92 : UInt8) < 128 by decide),
    hne _ (show (10 : UInt8) < 128 by decide), hne _ (show (13 : UInt8) < 128 by decide),
    hne _ (show (0 : UInt8) < 128 by decide), if_false]

theorem literalValue_high (h : 128 ≤ c) : literalValue nbe [c] = [c] := by
  have hne : c ≠ quote := fun hc => absurd (hc ▸ h) (by decide)
  cases nbe with
  | false => rfl
  | true => simp [literalValue, hne, escapeByte_high h]

/-- Two bytes that are no quote stand for what the backslash makes of them, or for themselves. -/
theorem readLiteral_pair {d : UInt8} (hd : d < 128) (hquote : d ≠ quote)
    (hc : unescaped d = [c]) (hne : c ≠ quote) (hesc : escapeByte c = [backslash, d]) :
    readLiteral cs nbe (.inside 0) (escapeByte c ++ rest) =
      withFront (literalValue nbe [c]) (readLiteral cs nbe (.inside 0) rest) := by
  cases nbe with
  | false =>
    rw [hesc]
    exact (readLiteral_escaped d).trans (by rw [hc]; rfl)
  | true =>
    have hvalue : literalValue true [c] = [backslash, d] := by
      rw [literalValue, if_pos rfl, List.flatMap_singleton, if_neg hne, hesc]
    rw [hvalue, hesc, List.cons_append, List.cons_append, List.nil_append,
      readLiteral_plain (by decide) (by decide) fun _ => rfl,
      readLiteral_plain hd hquote fun _ => rfl, withFront_withFront]
    rfl

/-- What is written for an ASCII byte is read as this byte. -/
theorem readLiteral_escapeByte (h : c < 128) :
    readLiteral cs nbe (.inside 0) (escapeByte c ++ rest) =
      withFront (literalValue nbe [c]) (readLiteral cs nbe (.inside 0) rest) := by
  by_cases hquote : c = 39
  · subst hquote
    have hvalue : literalValue nbe [39] = [quote] := by cases nbe <;> rfl
    rw [hvalue]
    exact readLiteral_quotes
  by_cases hdouble : c = 34
  · subst hdouble
    exact readLiteral_pair (by decide) (by decide) rfl (by decide) rfl
  by_cases hslash : c = 92
  · subst hslash
    exact readLiteral_pair (by decide) (by decide) rfl (by decide) rfl
  by_cases hlf : c = 10
  · subst hlf
    exact readLiteral_pair (d := 110) (by decide) (by decide) rfl (by decide) rfl
  by_cases hcr : c = 13
  · subst hcr
    exact readLiteral_pair (d := 114) (by decide) (by decide) rfl (by decide) rfl
  by_cases hnul : c = 0
  · subst hnul
    exact readLiteral_pair (d := 48) (by decide) (by decide) rfl (by decide) rfl
  · have hesc : escapeByte c = [c] := by
      rw [escapeByte, if_neg hquote, if_neg hdouble, if_neg hslash, if_neg hlf, if_neg hcr,
        if_neg hnul]
    have hvalue : literalValue nbe [c] = [c] := by
      cases nbe with
      | false => rfl
      | true =>
        rw [literalValue, if_pos rfl, List.flatMap_singleton]
        exact (if_neg hquote).trans hesc
    rw [hesc, hvalue]
    exact readLiteral_plain h hquote fun hc => absurd hc hslash

theorem escapeByte_ascii (h : c < 128) : ∃ d t, escapeByte c = d :: t ∧ d < 128 := by
  rw [escapeByte]
  repeat' split
  all_goals first | exact ⟨_, _, rfl, by decide⟩ | exact ⟨c, [], rfl, h⟩

theorem escape_cons : escape (c :: s) ++ rest = escapeByte c ++ (escape s ++ rest) := by
  rw [escape, List.flatMap_cons, List.append_assoc]
  rfl

/-- A character of more than one byte does not go on into an ASCII byte. -/
theorem take_high {n : Nat} (h : ∀ b ∈ (escape s ++ quote :: after).take n, 128 ≤ b) :
    n ≤ s.length ∧ ∀ b ∈ s.take n, 128 ≤ b := by
  induction s generalizing n with
  | nil =>
    cases n with
    | zero => exact ⟨Nat.le_refl 0, nofun⟩
    | succ n => exact absurd (h quote List.mem_cons_self) (by decide)
  | cons c s ih =>
    cases n with
    | zero => exact ⟨Nat.zero_le _, nofun⟩
    | succ n =>
      rw [escape_cons] at h
      have hc : 128 ≤ c := by
        by_contra hc
        obtain ⟨d, t, hd, hlt⟩ := escapeByte_ascii (UInt8.not_le.mp hc)
        rw [hd] at h
        exact absurd (h d List.mem_cons_self) (UInt8.not_le.mpr hlt)
      rw [escapeByte_high hc] at h
      obtain ⟨hle, hrest⟩ := ih fun b hb => h b (List.mem_cons_of_mem _ hb)
      refine ⟨Nat.succ_le_succ hle, fun b hb => ?_⟩
      rcases List.mem_cons.mp hb with rfl | hb
      · exact hc
      · exact hrest b hb

/-- The lexer ends the literal at the quote behind the text, wherever a character of more than one
byte has been begun. -/
theorem readLiteral_escape (hafter : after.head? ≠ some quote) {skip : Nat}
    (hskip : skip ≤ s.length) (hhigh : ∀ b ∈ s.take skip, 128 ≤ b) :
    readLiteral cs nbe (.inside skip) (escape s ++ quote :: after) =
      some (literalValue nbe s, after) := by
  induction s generalizing skip with
  | nil =>
    obtain rfl := Nat.le_zero.mp hskip
    refine (readLiteral_close hafter).trans ?_
    cases nbe <;> rfl
  | cons c s ih =>
    rw [escape_cons, literalValue_cons]
    cases skip with
    | succ skip =>
      have hc : 128 ≤ c := hhigh c List.mem_cons_self
      rw [escapeByte_high hc, literalValue_high hc, List.singleton_append, readLiteral,
        ih (Nat.le_of_succ_le_succ hskip) fun b hb => hhigh b (List.mem_cons_of_mem _ hb)]
      rfl
    | zero =>
      by_cases hc : c < 128
      · rw [readLiteral_escapeByte hc, ih (Nat.zero_le _) nofun]
        rfl
      have hhigh : 128 ≤ c := UInt8.not_lt.mp hc
      rw [escapeByte_high hhigh, literalValue_high hhigh, List.singleton_append, readLiteral]
      split
      · -- The bytes of the character are those of the text.
        rename_i hwide
        have hchar : ∀ b ∈ (escape s ++ quote :: after).take
            (cs.wide (c :: (escape s ++ quote :: after)) - 1), 128 ≤ b := by
          intro b hb
          refine cs.high (c :: (escape s ++ quote :: after)) b ?_
          rw [← Nat.succ_pred_eq_of_pos hwide, List.take_succ_cons]
          exact List.mem_cons_of_mem _ hb
        have htake := take_high hchar
        rw [ih htake.1 htake.2]
        rfl
      · have hslash : ¬(c = backslash ∧ nbe = false) := fun h =>
          absurd (h.1 ▸ hhigh : (128 : UInt8) ≤ backslash) (by decide)
        have hquote : c ≠ quote := fun h => absurd (h ▸ hhigh : (128 : UInt8) ≤ quote) (by decide)
        rw [if_neg hslash, if_neg hquote, ih (Nat.zero_le _) nofun]
        rfl

end Escaped

/-! ## The text around a literal -/

/-- A token of MySQL: a literal in single quotes with its value, or something else. -/
inductive SqlToken where
  | string (value : Bytes)
  | other (text : Bytes)
deriving DecidableEq

/-- The token that comes next, and what follows it.  `other` reads the tokens that begin with no
single quote. -/
def nextToken (cs : Charset) (noBackslashEscapes : Bool) (other : Bytes → Option (Bytes × Bytes)) :
    Bytes → Option (SqlToken × Bytes)
  | [] => none
  | c :: rest =>
    if c = quote then
      (readLiteral cs noBackslashEscapes (.inside 0) rest).map fun (v, after) => (.string v, after)
    else (other (c :: rest)).map fun (text, after) => (.other text, after)

/-- The lexer has read `ts` from `sql` and comes to `rest`. -/
inductive ReadsTo (cs : Charset) (noBackslashEscapes : Bool)
    (other : Bytes → Option (Bytes × Bytes)) (sql : Bytes) : Bytes → List SqlToken → Prop where
  | start : ReadsTo cs noBackslashEscapes other sql sql []
  | token {rest rest' : Bytes} {ts : List SqlToken} {t : SqlToken}
    (h : ReadsTo cs noBackslashEscapes other sql rest ts)
    (hnext : nextToken cs noBackslashEscapes other rest = some (t, rest')) :
    ReadsTo cs noBackslashEscapes other sql rest' (ts ++ [t])

/-- Wherever the lexer comes to an escaped text in quotes, in either mode, it reads one literal and
goes on behind the closing quote, unless another quote stands there.  With backslash escapes the
literal denotes the text. -/
theorem escape_one_literal {cs : Charset} {other : Bytes → Option (Bytes × Bytes)} {nbe : Bool}
    {sql s after : Bytes} {ts : List SqlToken}
    (hreach : ReadsTo cs nbe other sql (quote :: (escape s ++ quote :: after)) ts)
    (hafter : after.head? ≠ some quote) :
    nextToken cs nbe other (quote :: (escape s ++ quote :: after)) =
        some (.string (literalValue nbe s), after) ∧
      ReadsTo cs nbe other sql after (ts ++ [.string (literalValue nbe s)]) ∧
      literalValue false s = s := by
  have hnext : nextToken cs nbe other (quote :: (escape s ++ quote :: after)) =
      some (.string (literalValue nbe s), after) := by
    rw [nextToken, if_pos rfl, readLiteral_escape hafter (Nat.zero_le _) nofun]
    rfl
  exact ⟨hnext, .token hreach hnext, rfl⟩

/-- `SELECT 'it\\''s', 1`, of which the first token is `SELECT`. -/
theorem escape_one_literal_select :
    let other : Bytes → Option (Bytes × Bytes) := fun s => some (s.span (· ≠ quote))
    ReadsTo .utf8 false other (ascii "SELECT 'it\\\\''s', 1") (ascii ", 1")
      [.other (ascii "SELECT "), .string (ascii "it\\'s")] := by
  intro other
  have hreach : ReadsTo .utf8 false other (ascii "SELECT 'it\\\\''s', 1")
      (quote :: (escape (ascii "it\\'s") ++ quote :: ascii ", 1")) [.other (ascii "SELECT ")] :=
    .token .start (by decide)
  exact (escape_one_literal hreach (by decide)).2.1

/-- A quote behind the literal is read as a part of it. -/
theorem escape_not_closed : ¬ ∀ s after : Bytes,
    nextToken .utf8 false (fun _ => none) (quote :: (escape s ++ quote :: after)) =
      some (.string s, after) := by
  intro h
  have hclosed := h [] [quote]
  revert hclosed
  decide

end Mysql

end Look
