/-
When `pg_has_returning`, `pg_with_returning` and `pg_insert_target` are right.

The clause of a statement is the word RETURNING outside of brackets, unless a dot or AS stands
before it.  The scan finds a clause where its own lexer agrees with the one of PostgreSQL on what is
outside, as it does in simple statements.
-/
import Look.Postgres.InsertTarget
import Look.Postgres.Returning

namespace Look

namespace PgLex

/-- A word can begin here. -/
def Mode.fresh : Mode → Bool
  | .code word _ => word = []
  | .afterMinus _ | .afterSlash | .stringQuote _ | .nameQuote => true
  | _ => false

end PgLex

namespace PgInsert

open Postgres (Bytes)
open PgLex

/-! ## The clause -/

/-- Outside of brackets, and not behind a dot or AS, where the word would be a name. -/
structure ClausePlace (syms : List Sym) : Prop where
  level : syms.count (.byte .other 40) = syms.count (.byte .other 41)
  notField : (tokens syms).getLast? ≠ some dotToken
  notAlias : ∀ t ∈ (tokens syms).getLast?, t.map upperSym ≠ texts .word (ascii "AS")

/-- The statement has a RETURNING clause. -/
def HasClause (sql : Bytes) : Prop :=
  ∃ p rest, sql = p ++ rest ∧ (run p).fresh = true ∧ isReturning rest = true ∧
    ClausePlace (symbols p)

/-- Every word RETURNING begins the clause. -/
def ClauseOnly (sql : Bytes) : Prop :=
  ∀ p rest, sql = p ++ rest → (run p).fresh = true → isReturning rest = true →
    ClausePlace (symbols p)

/-! ## Simple statements -/

/-- The next byte keeps both lexers together: no quote is escaped, no dollar-quoted string and no
comment in a comment begins, and no line comment has a carriage return. -/
def simpleByte : Mode → UInt8 → Bool
  | .stringBackslash, c => c ≠ PgLex.quote
  | .tag _, c => c ≠ dollar
  | .block _ before, c => !(c = star && before = some PgLex.slash)
  | .line _, c => c ≠ 13
  | _, _ => true

/-- No byte drives the lexers apart, and no word begins right behind a digit. -/
structure Simple (sql : Bytes) : Prop where
  bytes : ∀ p c rest, sql = p ++ c :: rest → simpleByte (run p) c = true
  words : ∀ p c rest, sql = p ++ c :: rest → identStart c = true → (run p).fresh = true →
    p.getLast?.all (fun d => !identChar d) = true

def roughRun (p : Bytes) : Rough := p.foldl Rough.step (.code false)

/-- What the rough lexer knows in a mode. -/
inductive Related : Mode → Rough → Prop
  | code {word : Bytes} {gap : Gap} {behind : Bool} (h : word ≠ [] → behind = true) :
      Related (.code word gap) (.code behind)
  | minus {gap : Gap} : Related (.afterMinus gap) .minus
  | slash : Related .afterSlash .slash
  | tag {t : Bytes} : Related (.tag t) (.code true)
  | string {escapes : Bool} : Related (.string escapes) (.quoted PgLex.quote)
  | stringQuote {escapes : Bool} : Related (.stringQuote escapes) (.quoteEnd PgLex.quote)
  | stringBackslash : Related .stringBackslash (.quoted PgLex.quote)
  | name : Related .name (.quoted doubleQuote)
  | nameQuote : Related .nameQuote (.quoteEnd doubleQuote)
  | line {gap : Gap} : Related (.line gap) .line
  | block {before : Option UInt8} {starred : Bool} (h : starred = true ↔ before = some star) :
      Related (.block 1 before) (.block starred)

theorem related_code (word : Bytes) (gap : Gap) (c : UInt8) :
    Related (codeStep word gap c) (roughCode c) := by
  rw [codeStep, roughCode]
  by_cases hq : c = PgLex.quote
  · rw [if_pos hq, if_pos (Or.inl hq), hq]
    exact .string
  by_cases hd : c = doubleQuote
  · rw [if_neg hq, if_pos hd, if_pos (Or.inr hd), hd]
    exact .name
  have hquote : ¬ (c = PgLex.quote ∨ c = doubleQuote) := fun h => h.elim hq hd
  rw [if_neg hq, if_neg hd, if_neg hquote]
  by_cases hm : c = PgLex.minus
  · rw [if_pos hm, if_pos hm]
    exact .minus
  rw [if_neg hm, if_neg hm]
  by_cases hs : c = PgLex.slash
  · rw [if_pos hs, if_pos hs]
    exact .slash
  rw [if_neg hs, if_neg hs]
  by_cases hword : identStart c = true ∨ word ≠ [] ∧ identCont c = true
  · rw [if_pos hword]
    exact .code fun _ => hword.elim (identStart_char c) fun h => h.2
  rw [if_neg hword]
  by_cases hdollar : c = dollar
  · rw [if_pos hdollar, hdollar]
    exact .tag
  rw [if_neg hdollar]
  exact .code fun h => absurd rfl h

theorem tagCont_char (c : UInt8) (h : tagCont c = true) : roughCode c = .code true :=
  identChar_code c (tagCont_identChar c h)

theorem related_step {m : Mode} {r : Rough} (h : Related m r) {c : UInt8}
    (hc : simpleByte m c = true) : Related (m.step c) (r.step c) := by
  cases h with
  | code _ => exact related_code _ _ c
  | minus =>
    rw [Mode.step, Rough.step]
    split
    · exact .line
    · exact related_code _ _ c
  | slash =>
    rw [Mode.step, Rough.step]
    split
    · exact .block (by simp)
    · exact related_code _ _ c
  | tag =>
    have hdollar : c ≠ dollar := of_decide_eq_true hc
    rw [Mode.step, if_neg hdollar, Rough.step]
    split
    · rename_i hmore
      rw [tagCont_char c (hmore.elim (fun h => by simp [tagCont, h]) fun h => h.2)]
      exact .tag
    · exact related_code _ _ c
  | string =>
    rw [Mode.step, Rough.step]
    by_cases hq : c = PgLex.quote
    · rw [if_pos hq, if_pos hq]
      exact .stringQuote
    · rw [if_neg hq, if_neg hq]
      split
      · exact .stringBackslash
      · exact .string
  | stringQuote =>
    rw [Mode.step, Rough.step]
    split
    · exact .string
    · exact related_code _ _ c
  | stringBackslash =>
    have hq : c ≠ PgLex.quote := of_decide_eq_true hc
    rw [Mode.step, Rough.step, if_neg hq]
    exact .string
  | name =>
    rw [Mode.step, Rough.step]
    split
    · exact .nameQuote
    · exact .name
  | nameQuote =>
    rw [Mode.step, Rough.step]
    split
    · exact .name
    · exact related_code _ _ c
  | line =>
    have hcr : c ≠ 13 := of_decide_eq_true hc
    rw [Mode.step, Rough.step]
    by_cases hlf : c = lf
    · rw [if_pos hlf, hlf, if_pos (by decide)]
      exact .code fun h => absurd rfl h
    · have hnl : ¬ isNewline c = true := by
        rw [isNewline, Bool.or_eq_true, decide_eq_true_iff, decide_eq_true_iff]
        exact fun h => h.elim hlf hcr
      rw [if_neg hlf, if_neg hnl]
      exact .line
  | @block before starred hstar =>
    rw [Mode.step, Rough.step]
    by_cases hend : c = PgLex.slash ∧ before = some star
    · rw [if_pos hend, if_pos (Nat.le_refl 1), if_pos ⟨hstar.mpr hend.2, hend.1⟩]
      exact .code fun h => absurd rfl h
    · have hnest : ¬ (c = star ∧ before = some PgLex.slash) := by
        rintro ⟨rfl, rfl⟩
        cases hc
      rw [if_neg hend, if_neg hnest, if_neg fun h => hend ⟨h.2, hstar.mp h.1⟩]
      exact .block (by simp)

theorem related_run {sql : Bytes} (h : Simple sql) (p rest : Bytes) (hsql : sql = p ++ rest) :
    Related (run p) (roughRun p) := by
  induction p using List.reverseRecOn generalizing rest with
  | nil => exact .code fun hno => absurd rfl hno
  | append_singleton p c ih =>
    rw [List.append_assoc, List.singleton_append] at hsql
    rw [run, roughRun, List.foldl_append, List.foldl_append]
    exact related_step (ih _ hsql) (h.bytes p c rest hsql)

theorem roughCode_word {c : UInt8} (h : roughCode c = .code true) : identChar c = true := by
  rw [roughCode] at h
  split at h
  · cases h
  split at h
  · cases h
  split at h
  · cases h
  exact Rough.code.inj h

theorem roughStep_word {r : Rough} {c : UInt8} (h : r.step c = .code true) :
    identChar c = true := by
  cases r with
  | code => exact roughCode_word h
  | minus | slash | quoteEnd =>
    rw [Rough.step] at h
    split at h
    · cases h
    · exact roughCode_word h
  | quoted | line | block =>
    rw [Rough.step] at h
    split at h <;> cases h

theorem roughRun_code {p : Bytes} (h : roughRun p = .code true) :
    p.getLast?.all (fun d => !identChar d) = false := by
  rcases List.eq_nil_or_concat p with rfl | ⟨q, c, rfl⟩
  · cases h
  · rw [roughRun, List.concat_eq_append, List.foldl_append] at h
    rw [List.concat_eq_append, List.getLast?_concat, Option.all_some, roughStep_word h]
    rfl

/-- In simple statements both lexers have the same words outside. -/
theorem fresh_iff {sql : Bytes} (h : Simple sql) {p : Bytes} {c : UInt8} {rest : Bytes}
    (hsql : sql = p ++ c :: rest) (hc : identStart c = true) :
    (run p).fresh = true ↔ (roughRun p).fresh = true := by
  have hrel := related_run h p (c :: rest) hsql
  have hwords := h.words p c rest hsql hc
  generalize hm : run p = m at hrel hwords
  generalize hr : roughRun p = r at hrel
  cases hrel with
  | @code word gap behind hword =>
    cases behind with
    | true =>
      refine iff_of_false (fun hfresh => ?_) Bool.false_ne_true
      rw [roughRun_code hr] at hwords
      cases hwords hfresh
    | false =>
      have hnil : word = [] := by
        by_contra hne
        cases hword hne
      exact iff_of_true (by rw [hnil]; rfl) rfl
  | minus | slash | tag | string | stringQuote | stringBackslash | name | nameQuote | line | block =>
    exact Iff.rfl

/-- The first byte of the word RETURNING begins a word. -/
theorem returning_start {rest : Bytes} (h : isReturning rest = true) :
    ∃ c s, rest = c :: s ∧ identStart c = true := by
  cases rest with
  | nil =>
    rw [isReturning, keyword_nil _ (by decide)] at h
    cases h
  | cons c s =>
    refine ⟨c, s, rfl, ?_⟩
    by_contra hc
    rw [not_returning (Bool.eq_false_iff.mpr hc)] at h
    cases h

/-- The scan is right on a simple statement when every word RETURNING begins the clause. -/
theorem seen_iff_of_simple {sql : Bytes} (h : Simple sql) (honly : ClauseOnly sql) :
    Seen sql ↔ HasClause sql := by
  constructor
  · rintro ⟨p, rest, hsql, hfresh, hword⟩
    obtain ⟨c, s, rfl, hc⟩ := returning_start hword
    have hrun := (fresh_iff h hsql hc).mpr hfresh
    exact ⟨p, c :: s, hsql, hrun, hword, honly p _ hsql hrun hword⟩
  · rintro ⟨p, rest, hsql, hfresh, hword, -⟩
    obtain ⟨c, s, rfl, hc⟩ := returning_start hword
    exact ⟨p, c :: s, hsql, (fresh_iff h hsql hc).mp hfresh, hword⟩

/-! ## What holds of the three functions -/

/-- The scan finds the clause when some word RETURNING is outside for the rough lexer exactly in the
statements with a clause, as in simple ones; the clause that is added stands behind the statement
unless a semicolon is left there; and the target is the name of the table unless white space splits
that. -/
theorem returning_rewriting {sql : Bytes} (hclosed : Closed sql) (htarget : ValidTarget sql) :
    ((pgHasReturning sql = true ↔ HasClause sql) ↔ (Seen sql ↔ HasClause sql)) ∧
    (Simple sql → ClauseOnly sql → (pgHasReturning sql = true ↔ HasClause sql)) ∧
    (∀ col, denoted (quoteName col) = col ∧
      (pieces (symbols (pgWithReturning sql col)) = pieces (stripEnd (symbols sql)) ++
          [texts .word (ascii "RETURNING"), texts .name (quoteName col)] ↔
        NoSemicolon (symbols (trimEnd sql)))) ∧
    ((pgInsertTarget sql = [] ∨ tokens (symbols (pgInsertTarget sql)) = target sql) ↔
      ¬ SplitName sql) := by
  refine ⟨by rw [pgHasReturning_iff], fun hsimple honly => ?_, fun col => ?_, target_iff htarget⟩
  · exact (pgHasReturning_iff sql).trans (seen_iff_of_simple hsimple honly)
  · exact ⟨denoted_quoteName col, pieces_with_iff hclosed col⟩

theorem returning_rewriting_values :
    pieces (symbols (pgWithReturning (ascii "INSERT INTO t VALUES (1);") (ascii "id"))) =
      pieces (stripEnd (symbols (ascii "INSERT INTO t VALUES (1);"))) ++
        [texts .word (ascii "RETURNING"), texts .name (quoteName (ascii "id"))] := by
  have hclosed : Closed (ascii "INSERT INTO t VALUES (1);") := Or.inl (by decide +kernel)
  have htarget : ValidTarget (ascii "INSERT INTO t VALUES (1);") :=
    ⟨by decide +kernel, by decide +kernel⟩
  have hend : NoSemicolon (symbols (trimEnd (ascii "INSERT INTO t VALUES (1);"))) := by
    rw [NoSemicolon]
    decide +kernel
  exact ((returning_rewriting hclosed htarget).2.2.1 (ascii "id")).2.mpr hend

/-- A clause behind an escaped quote is not found, a semicolon before a comment stays, and of a name
with a blank in it the first part is returned. -/
theorem returning_missed :
    (pgHasReturning (ascii "INSERT INTO t VALUES (E'\\'') RETURNING id") = false ∧
      HasClause (ascii "INSERT INTO t VALUES (E'\\'') RETURNING id")) ∧
    pieces (symbols (pgWithReturning (ascii "INSERT INTO t DEFAULT VALUES; -- x") (ascii "id"))) ≠
      pieces (stripEnd (symbols (ascii "INSERT INTO t DEFAULT VALUES; -- x"))) ++
        [texts .word (ascii "RETURNING"), texts .name (quoteName (ascii "id"))] ∧
    pgInsertTarget (ascii "INSERT INTO a .b DEFAULT VALUES") = ascii "a" ∧
      target (ascii "INSERT INTO a .b DEFAULT VALUES") =
        [texts .word (ascii "a"), dotToken, texts .word (ascii "b")] := by
  refine ⟨⟨by decide +kernel, ascii "INSERT INTO t VALUES (E'\\'') ", ascii "RETURNING id", ?_⟩,
    by decide +kernel, by decide +kernel, by decide +kernel⟩
  exact ⟨by decide +kernel, by decide +kernel, by decide +kernel, by decide +kernel,
    by decide +kernel, by decide +kernel⟩

end PgInsert

end Look
