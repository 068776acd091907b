/-
`look/pg_insert.h`: the target of an INSERT, and its RETURNING clause.

`pg_has_returning` scans the text with quotes and comments of its own kind: a quote is closed by the
next one that is not doubled, `--` goes to the next line feed and `/*` to the first `*/`.  `Rough` is
this lexer; `pgHasReturning_iff` says that the scan finds the words that `Rough` has outside.
-/
import Look.Postgres.Tokens

namespace Look

namespace PgInsert

open Postgres (Bytes)
open PgLex

def lf : UInt8 := 10

def toUpper (c : UInt8) : UInt8 := if 97 ≤ c ∧ c ≤ 122 then c - 32 else c

/-- `ident_char`. -/
def identChar (c : UInt8) : Bool := identCont c

/-! ## The scanners -/

/-- `skip_ws`. -/
def skipWs (s : Bytes) : Bytes := s.dropWhile isSpace

/-- What stands behind a keyword. -/
def keyword (kw s : Bytes) : Option Bytes :=
  if (s.take kw.length).map toUpper = kw ∧ ¬ (s.drop kw.length).head?.any identChar then
    some (s.drop kw.length)
  else none

/-- A text up to the quote that ends it, and what stands behind. -/
def readQuoted (q : UInt8) : Bytes → Option (Bytes × Bytes)
  | [] => none
  | [c] => if c = q then some ([c], []) else none
  | c :: d :: s =>
    if c = q then
      if d = q then (readQuoted q s).map fun (x, y) => (c :: d :: x, y) else some ([c], d :: s)
    else (readQuoted q (d :: s)).map fun (x, y) => (c :: x, y)

/-- A part of the name of a table. -/
def readPart : Bytes → Option (Bytes × Bytes)
  | [] => none
  | c :: s =>
    if c = doubleQuote then (readQuoted doubleQuote s).map fun (x, y) => (c :: x, y)
    else if identStart c then some ((c :: s).takeWhile identChar, (c :: s).dropWhile identChar)
    else none

/-- The loop over the parts, behind what has been read. -/
def readName : Nat → Bytes → Bytes → Option (Bytes × Bytes)
  | 0, read, s => some (read, s)
  | parts + 1, read, s =>
    match readPart s with
    | none => none
    | some (part, rest) =>
      if s.head? = some doubleQuote ∧ (read ++ part).length < 3 then none
      else
        match rest with
        | [] => some (read ++ part, [])
        | c :: rest =>
          if c = dot then readName parts (read ++ part ++ [c]) rest
          else some (read ++ part, c :: rest)

/-- `pg_insert_target`. -/
def pgInsertTarget (sql : Bytes) : Bytes :=
  match keyword (ascii "INSERT") (skipWs sql) with
  | none => []
  | some s =>
    match keyword (ascii "INTO") (skipWs s) with
    | none => []
    | some s =>
      match readName 3 [] (skipWs s) with
      | none => []
      | some (name, rest) => if rest.head?.all fun c => isSpace c || c = 40 then name else []

/-- The loop of `pg_has_returning`, for so many turns.  `before` says whether the byte before is an
`ident_char`. -/
def hasReturningLoop : Nat → Bool → Bytes → Bool
  | 0, _, _ => false
  | _ + 1, _, [] => false
  | turns + 1, before, c :: s =>
    if c = quote ∨ c = doubleQuote then
      hasReturningLoop turns false (((readQuoted c s).map Prod.snd).getD [])
    else if c = minus ∧ s.head? = some minus then
      hasReturningLoop turns false ((c :: s).dropWhile (· ≠ lf))
    else if c = slash ∧ s.head? = some star then
      hasReturningLoop turns false (((breakOn [star, slash] s.tail).map Prod.snd).getD [])
    else if identStart c ∧ ¬ before then
      if (keyword (ascii "RETURNING") (c :: s)).isSome then true
      else hasReturningLoop turns true ((c :: s).dropWhile identChar)
    else hasReturningLoop turns (identChar c) s

/-- `pg_has_returning`. -/
def pgHasReturning (sql : Bytes) : Bool := hasReturningLoop sql.length false sql

/-- The name of a column in quotes. -/
def quoteName (col : Bytes) : Bytes :=
  doubleQuote :: (col.flatMap (fun c => if c = doubleQuote then [doubleQuote, c] else [c]) ++
    [doubleQuote])

/-- A statement without the white space and the semicolons at its end. -/
def trimEnd (sql : Bytes) : Bytes := sql.rdropWhile fun c => isSpace c || c = semicolon

/-- `pg_with_returning`. -/
def pgWithReturning (sql col : Bytes) : Bytes :=
  trimEnd sql ++ lf :: (ascii "RETURNING " ++ quoteName col)

/-! ## The words that the scan finds -/

/-- Where the lexer of the scan is. -/
inductive Rough where
  /-- Outside, behind a byte that may or may not be part of a word. -/
  | code (word : Bool)
  | minus
  | slash
  | quoted (q : UInt8)
  /-- Behind a quote that ends the text, unless it is doubled. -/
  | quoteEnd (q : UInt8)
  | line
  /-- In a comment, with whether the byte before is a `*`. -/
  | block (starred : Bool)
deriving DecidableEq

def roughCode (c : UInt8) : Rough :=
  if c = PgLex.quote ∨ c = doubleQuote then .quoted c
  else if c = PgLex.minus then .minus
  else if c = PgLex.slash then .slash
  else .code (identChar c)

def Rough.step : Rough → UInt8 → Rough
  | .code _, c => roughCode c
  | .minus, c => if c = PgLex.minus then .line else roughCode c
  | .slash, c => if c = star then .block false else roughCode c
  | .quoted q, c => if c = q then .quoteEnd q else .quoted q
  | .quoteEnd q, c => if c = q then .quoted q else roughCode c
  | .line, c => if c = lf then .code false else .line
  | .block starred, c => if starred ∧ c = PgLex.slash then .code false else .block (c = star)

/-- A word can begin here. -/
def Rough.fresh : Rough → Bool
  | .code word => !word
  | .minus | .slash | .quoteEnd _ => true
  | _ => false

/-- The word RETURNING comes next. -/
def isReturning (s : Bytes) : Bool := (keyword (ascii "RETURNING") s).isSome

/-- A word RETURNING stands in the text where the rough lexer is outside. -/
def SeenFrom (r : Rough) (s : Bytes) : Prop :=
  ∃ p rest, s = p ++ rest ∧ (p.foldl Rough.step r).fresh = true ∧ isReturning rest = true

def Seen (sql : Bytes) : Prop := SeenFrom (.code false) sql

theorem keyword_nil (kw : Bytes) (h : kw ≠ []) : keyword kw [] = none := by
  rw [keyword, if_neg]
  rintro ⟨hkw, -⟩
  exact h (by simpa using hkw.symm)

theorem seenFrom_nil (r : Rough) : ¬ SeenFrom r [] := by
  rintro ⟨p, rest, hs, -, hword⟩
  obtain ⟨-, rfl⟩ := List.append_eq_nil_iff.mp hs.symm
  rw [isReturning, keyword_nil _ (by decide)] at hword
  cases hword

theorem seenFrom_cons {r : Rough} {c : UInt8} {s : Bytes} :
    SeenFrom r (c :: s) ↔
      (r.fresh = true ∧ isReturning (c :: s) = true) ∨ SeenFrom (r.step c) s := by
  constructor
  · rintro ⟨p, rest, hs, hfresh, hword⟩
    cases p with
    | nil => exact Or.inl ⟨hfresh, hs ▸ hword⟩
    | cons d p =>
      cases hs
      exact Or.inr ⟨p, rest, rfl, hfresh, hword⟩
  · rintro (⟨hfresh, hword⟩ | ⟨p, rest, rfl, hfresh, hword⟩)
    · exact ⟨[], c :: s, rfl, hfresh, hword⟩
    · exact ⟨c :: p, rest, rfl, hfresh, hword⟩

theorem seenFrom_step {r : Rough} {c : UInt8} {s : Bytes}
    (h : r.fresh = false ∨ isReturning (c :: s) = false) :
    SeenFrom r (c :: s) ↔ SeenFrom (r.step c) s := by
  rw [seenFrom_cons, or_iff_right]
  rintro ⟨hfresh, hword⟩
  rcases h with h | h
  · rw [h] at hfresh
    cases hfresh
  · rw [h] at hword
    cases hword

/-- The next byte decides where the lexer goes. -/
theorem seenFrom_congr {r r' : Rough} {s : Bytes} (hfresh : r.fresh = r'.fresh)
    (hstep : ∀ c ∈ s.head?, r.step c = r'.step c) : SeenFrom r s ↔ SeenFrom r' s := by
  cases s with
  | nil => exact iff_of_false (seenFrom_nil r) (seenFrom_nil r')
  | cons c s => rw [seenFrom_cons, seenFrom_cons, hfresh, hstep c rfl]

/-- A letter is a letter in either case. -/
theorem toUpper_start (c : UInt8) (h : identStart (toUpper c) = true) : identStart c = true := by
  rw [toUpper] at h
  split at h
  · rename_i hlower
    rw [identStart, decide_eq_true hlower.1, decide_eq_true hlower.2, Bool.and_self, Bool.or_true,
      Bool.true_or, Bool.true_or]
  · exact h

theorem toUpper_word (c : UInt8) (h : toUpper c = 82) : identStart c = true :=
  toUpper_start c (by rw [h]; decide)

theorem tagCont_identChar (c : UInt8) (h : tagCont c = true) : identChar c = true := by
  rw [identChar, identCont, h, Bool.true_or]

theorem identStart_char (c : UInt8) (h : identStart c = true) : identChar c = true :=
  tagCont_identChar c (by rw [tagCont, h, Bool.true_or])

theorem identChar_code (c : UInt8) (h : identChar c = true) : roughCode c = .code true := by
  have hne : ∀ d : UInt8, identChar d = false → c ≠ d := by
    rintro d hd rfl
    exact Bool.false_ne_true (hd.symm.trans h)
  rw [roughCode, if_neg (not_or.mpr ⟨hne _ (by decide), hne _ (by decide)⟩),
    if_neg (hne _ (by decide)), if_neg (hne _ (by decide)), h]

theorem not_returning {c : UInt8} (h : identStart c = false) (s : Bytes) :
    isReturning (c :: s) = false := by
  rw [isReturning, keyword, if_neg]
  · rfl
  · rintro ⟨hword, -⟩
    have hc := toUpper_word c (List.cons.inj hword).1
    rw [h] at hc
    cases hc

theorem seenFrom_quoted {q : UInt8} (hq : identStart q = false) (s : Bytes) :
    SeenFrom (.quoted q) s ↔ SeenFrom (.code false) (((readQuoted q s).map Prod.snd).getD []) := by
  fun_induction readQuoted q s with
  | case1 => exact iff_of_false (seenFrom_nil _) (seenFrom_nil _)
  | case2 | case3 =>
    exact (seenFrom_step (Or.inl rfl)).trans (iff_of_false (seenFrom_nil _) (seenFrom_nil _))
  | case4 s ih =>
    rw [seenFrom_step (Or.inl rfl), Rough.step, if_pos rfl,
      seenFrom_step (Or.inr (not_returning hq s)), Rough.step, if_pos rfl, ih, Option.map_map]
    rfl
  | case5 d s hd =>
    rw [seenFrom_step (Or.inl rfl), Rough.step, if_pos rfl]
    refine seenFrom_congr rfl fun c hc => ?_
    rw [← Option.mem_some_iff.mp hc]
    exact if_neg hd
  | case6 c d s hc ih =>
    rw [seenFrom_step (Or.inl rfl), Rough.step, if_neg hc, ih, Option.map_map]
    rfl

theorem seenFrom_line (s : Bytes) :
    SeenFrom .line s ↔ SeenFrom (.code false) (s.dropWhile (· ≠ lf)) := by
  induction s with
  | nil => exact iff_of_false (seenFrom_nil _) (seenFrom_nil _)
  | cons c s ih =>
    rw [seenFrom_step (Or.inl rfl), Rough.step]
    by_cases hc : c = lf
    · rw [if_pos hc, List.dropWhile_cons_of_neg (by simp [hc]), hc,
        seenFrom_step (Or.inr (not_returning (by decide) s))]
      rfl
    · rw [if_neg hc, List.dropWhile_cons_of_pos (by simp [hc]), ih]

theorem seenFrom_block (starred : Bool) (s : Bytes) :
    SeenFrom (.block starred) s ↔
      SeenFrom (.code false) (if starred ∧ s.head? = some PgLex.slash then s.tail
        else ((breakOn [star, PgLex.slash] s).map Prod.snd).getD []) := by
  induction s generalizing starred with
  | nil => exact iff_of_false (seenFrom_nil _) (by simpa [breakOn] using seenFrom_nil _)
  | cons c s ih =>
    rw [seenFrom_step (Or.inl rfl), Rough.step]
    by_cases hend : starred = true ∧ c = PgLex.slash
    · rw [if_pos hend, if_pos ⟨hend.1, congrArg some hend.2⟩, List.tail_cons]
    · rw [if_neg hend, if_neg fun h => hend ⟨h.1, Option.some.inj h.2⟩, ih, breakOn]
      by_cases hc : c = star ∧ s.head? = some PgLex.slash
      · obtain ⟨rfl, hhead⟩ := hc
        cases s with
        | nil => cases hhead
        | cons d s =>
          rw [Option.some.inj hhead]
          rfl
      · have hnot : ¬ [star, PgLex.slash].isPrefixOf (c :: s) = true := by
          rw [List.isPrefixOf_iff_prefix]
          rintro ⟨t, ht⟩
          cases ht
          exact hc ⟨rfl, rfl⟩
        rw [if_neg (by simpa using hc), if_neg hnot, Option.map_map]
        rfl

theorem seenFrom_word (s : Bytes) :
    SeenFrom (.code true) s ↔ SeenFrom (.code true) (s.dropWhile identChar) := by
  induction s with
  | nil => exact Iff.rfl
  | cons c s ih =>
    by_cases hc : identChar c = true
    · rw [List.dropWhile_cons_of_pos hc, seenFrom_step (Or.inl rfl), Rough.step, identChar_code c hc,
        ih]
    · rw [List.dropWhile_cons_of_neg hc]

theorem readQuoted_eq {q : UInt8} {s x y : Bytes} (h : readQuoted q s = some (x, y)) :
    s = x ++ y := by
  fun_induction readQuoted q s generalizing x with
  | case1 => cases h
  | case2 => cases h; rfl
  | case3 => cases h
  | case4 s ih =>
    obtain ⟨⟨x', y'⟩, hread, heq⟩ := Option.map_eq_some_iff.mp h
    cases heq
    rw [ih hread]
    rfl
  | case5 => cases h; rfl
  | case6 c d s hc ih =>
    obtain ⟨⟨x', y'⟩, hread, heq⟩ := Option.map_eq_some_iff.mp h
    cases heq
    rw [ih hread]
    rfl

theorem readQuoted_rest_length (q : UInt8) (s : Bytes) :
    (((readQuoted q s).map Prod.snd).getD []).length ≤ s.length := by
  cases h : readQuoted q s with
  | none => exact Nat.zero_le _
  | some r =>
    rw [readQuoted_eq h, List.length_append]
    exact Nat.le_add_left _ _

theorem breakOn_rest_length (pat s : Bytes) :
    (((breakOn pat s).map Prod.snd).getD []).length ≤ s.length := by
  cases h : breakOn pat s with
  | none => exact Nat.zero_le _
  | some r =>
    rw [breakOn_eq h, List.length_append]
    exact Nat.le_add_left _ _

theorem dropWhile_length (p : UInt8 → Bool) (s : Bytes) : (s.dropWhile p).length ≤ s.length :=
  (List.dropWhile_sublist p).length_le

/-- With a turn for every byte the loop finds the words outside. -/
theorem hasReturningLoop_iff {turns : Nat} {before : Bool} {s : Bytes} (h : s.length ≤ turns) :
    hasReturningLoop turns before s = true ↔ SeenFrom (.code before) s := by
  induction turns generalizing before s with
  | zero =>
    rw [List.length_eq_zero_iff.mp (Nat.le_zero.mp h)]
    exact iff_of_false Bool.false_ne_true (seenFrom_nil _)
  | succ turns ih =>
    cases s with
    | nil => exact iff_of_false Bool.false_ne_true (seenFrom_nil _)
    | cons c s =>
      have hs : s.length ≤ turns := Nat.le_of_succ_le_succ h
      rw [hasReturningLoop]
      by_cases hquote : c = PgLex.quote ∨ c = doubleQuote
      · have hstart : identStart c = false := by rcases hquote with rfl | rfl <;> decide
        rw [if_pos hquote, ih ((readQuoted_rest_length c s).trans hs),
          seenFrom_step (Or.inr (not_returning hstart s)), Rough.step, roughCode, if_pos hquote,
          seenFrom_quoted hstart]
      rw [if_neg hquote]
      by_cases hminus : c = PgLex.minus ∧ s.head? = some PgLex.minus
      · obtain ⟨rfl, hhead⟩ := hminus
        cases s with
        | nil => cases hhead
        | cons d s =>
          cases hhead
          have hrest : (PgLex.minus :: PgLex.minus :: s).dropWhile (· ≠ lf) =
              s.dropWhile (· ≠ lf) := rfl
          rw [if_pos ⟨rfl, rfl⟩, hrest, ih ((dropWhile_length _ s).trans (Nat.le_of_succ_le hs)),
            seenFrom_step (Or.inr (not_returning (by decide) _)),
            seenFrom_step (Or.inr (not_returning (by decide) _))]
          exact (seenFrom_line s).symm
      rw [if_neg hminus]
      by_cases hslash : c = PgLex.slash ∧ s.head? = some star
      · obtain ⟨rfl, hhead⟩ := hslash
        cases s with
        | nil => cases hhead
        | cons d s =>
          cases hhead
          rw [if_pos ⟨rfl, rfl⟩, List.tail_cons,
            ih ((breakOn_rest_length _ s).trans (Nat.le_of_succ_le hs)),
            seenFrom_step (Or.inr (not_returning (by decide) _)),
            seenFrom_step (Or.inr (not_returning (by decide) _))]
          refine Iff.symm ((seenFrom_block false s).trans ?_)
          rw [if_neg fun hno => Bool.false_ne_true hno.1]
      rw [if_neg hslash]
      by_cases hword : identStart c = true ∧ ¬ before = true
      · have hdef : (keyword (ascii "RETURNING") (c :: s)).isSome = isReturning (c :: s) := rfl
        rw [if_pos hword, hdef]
        have hchar := identStart_char c hword.1
        by_cases hret : isReturning (c :: s) = true
        · rw [if_pos hret]
          have hfresh : (Rough.code before).fresh = true := by simpa [Rough.fresh] using hword.2
          exact iff_of_true rfl (seenFrom_cons.mpr (Or.inl ⟨hfresh, hret⟩))
        · rw [if_neg hret, List.dropWhile_cons_of_pos hchar, ih ((dropWhile_length _ s).trans hs),
            seenFrom_step (Or.inr (Bool.eq_false_iff.mpr hret)), Rough.step, identChar_code c hchar,
            seenFrom_word s]
      · rw [if_neg hword, ih hs]
        have hnot : (Rough.code before).fresh = false ∨ isReturning (c :: s) = false := by
          cases hstart : identStart c with
          | false => exact Or.inr (not_returning hstart s)
          | true =>
            refine Or.inl ?_
            rw [Rough.fresh, Bool.not_eq_false']
            by_contra hbefore
            exact hword ⟨hstart, hbefore⟩
        rw [seenFrom_step hnot, Rough.step, roughCode, if_neg hquote]
        by_cases hm : c = PgLex.minus
        · rw [if_pos hm, hm]
          refine seenFrom_congr rfl fun d hd => ?_
          exact (if_neg fun hdm => hminus ⟨hm, hd.trans (congrArg some hdm)⟩).symm
        rw [if_neg hm]
        by_cases hsl : c = PgLex.slash
        · rw [if_pos hsl, hsl]
          refine seenFrom_congr rfl fun d hd => ?_
          exact (if_neg fun hds => hslash ⟨hsl, hd.trans (congrArg some hds)⟩).symm
        rw [if_neg hsl]

/-- The scan finds the words RETURNING that the rough lexer has outside. -/
theorem pgHasReturning_iff (sql : Bytes) : pgHasReturning sql = true ↔ Seen sql :=
  hasReturningLoop_iff (Nat.le_refl _)

end PgInsert

end Look
