/-
What `pg_with_returning` makes of a statement.

The white space and the semicolons at the end of the text are cut before the clause is added, so
that the clause follows the statement when its last token is not a semicolon by then.  A comment
behind a semicolon keeps that one in the text.
-/
import Look.Postgres.Insert

namespace Look

namespace PgInsert

open Postgres (Bytes)
open PgLex

/-! ## The end of a statement -/

/-- A byte that is cut. -/
def isEnd (c : UInt8) : Bool := isSpace c || c = semicolon

/-- A symbol behind the statement. -/
def endSym (s : Sym) : Bool := s = .gap || s = .byte .other semicolon

/-- The symbols of a statement without what stands behind it. -/
def stripEnd (syms : List Sym) : List Sym := syms.rdropWhile endSym

/-- The last token is not a semicolon. -/
def NoSemicolon (syms : List Sym) : Prop :=
  (syms.filter (· ≠ .gap)).getLast? ≠ some (.byte .other semicolon)

theorem isEnd_plain : ∀ c : UInt8, isEnd c = true →
    c ≠ PgLex.quote ∧ c ≠ doubleQuote ∧ c ≠ PgLex.minus ∧ c ≠ PgLex.slash ∧ identStart c = false ∧
      identCont c = false ∧ tagCont c = false ∧ c ≠ dollar ∧ c ≠ star ∧
      (isSpace c = false → c = semicolon) :=
  forall_byte (by decide +kernel)

theorem codeStep_end {c : UInt8} (h : isEnd c = true) (w : Bytes) (g : Gap) :
    codeStep w g c = .code [] (g.step c) := by
  obtain ⟨hq, hd, hm, hs, hstart, hcont, -, hdollar, -⟩ := isEnd_plain c h
  rw [codeStep, if_neg hq, if_neg hd, if_neg hm, if_neg hs, if_neg (by simp [hstart, hcont]),
    if_neg hdollar]

theorem codeEmit_end {c : UInt8} (h : isEnd c = true) (w : Bytes) :
    ∃ s, codeEmit w c = [s] ∧ endSym s = true ∧ (isSpace c = true → s = .gap) := by
  obtain ⟨hq, hd, hm, hs, hstart, hcont, -, hdollar, -, hspace⟩ := isEnd_plain c h
  rw [codeEmit, if_neg hq, if_neg hd, if_neg (by simp [hm, hs]), if_neg (by simp [hstart, hcont]),
    if_neg hdollar]
  cases hc : isSpace c with
  | true => exact ⟨.gap, rfl, rfl, fun _ => rfl⟩
  | false =>
    rw [hspace hc]
    exact ⟨.byte .other semicolon, rfl, rfl, nofun⟩

/-- Outside, such a byte ends a token and is one for itself. -/
theorem outside_end {m : Mode} (hm : m.outside = true) {c : UInt8} (h : isEnd c = true) :
    ∃ g s, m.step c = .code [] g ∧ m.emit c = m.pending ++ [s] ∧ endSym s = true ∧
      (isSpace c = true → s = .gap) := by
  obtain ⟨hq, hd, hmi, hsl, hstart, hcont, htag, hdollar, hstar, -⟩ := isEnd_plain c h
  cases m with
  | code w g =>
    obtain ⟨s, hs, hend⟩ := codeEmit_end h w
    exact ⟨_, s, codeStep_end h w g, hs, hend⟩
  | afterMinus g =>
    obtain ⟨s, hs, hend⟩ := codeEmit_end h []
    refine ⟨_, s, (if_neg hmi).trans (codeStep_end h [] .closed), ?_, hend⟩
    rw [Mode.emit, if_neg hmi, hs]
    rfl
  | afterSlash =>
    obtain ⟨s, hs, hend⟩ := codeEmit_end h []
    refine ⟨_, s, (if_neg hstar).trans (codeStep_end h [] .closed), ?_, hend⟩
    rw [Mode.emit, if_neg hstar, hs]
    rfl
  | tag t =>
    obtain ⟨s, hs, hend⟩ := codeEmit_end h t
    have hmore : ¬ (identStart c = true ∨ t ≠ [] ∧ tagCont c = true) := by simp [hstart, htag]
    refine ⟨Gap.step .closed c, s, ?_, ?_, hend⟩
    · rw [Mode.step, if_neg hdollar, if_neg hmore]
      exact codeStep_end h t .closed
    · rw [Mode.emit, if_neg hdollar, if_neg hmore, hs]
      rfl
  | stringQuote escapes =>
    obtain ⟨s, hs, hend⟩ := codeEmit_end h []
    refine ⟨_, s, (if_neg hq).trans (codeStep_end h [] _), ?_, hend⟩
    rw [Mode.emit, if_neg hq, hs]
    rfl
  | nameQuote =>
    obtain ⟨s, hs, hend⟩ := codeEmit_end h []
    refine ⟨_, s, (if_neg hd).trans (codeStep_end h [] .closed), ?_, hend⟩
    rw [Mode.emit, if_neg hd, hs]
    rfl
  | string | stringBackslash | name | dollars | line | block => cases hm

/-- A text may end here. -/
def Ends (m : Mode) : Prop := m.outside = true ∨ ∃ g, m = .line g

/-- A byte that is cut does not end a literal, a name or a comment in brackets. -/
theorem ends_of_step {m : Mode} {c : UInt8} (h : isEnd c = true) (hstep : Ends (m.step c)) :
    Ends m := by
  obtain ⟨hq, hd, -, hsl, -, -, -, hdollar, hstar, -⟩ := isEnd_plain c h
  cases m with
  | code | afterMinus | afterSlash | tag | stringQuote | nameQuote => exact Or.inl rfl
  | line g => exact Or.inr ⟨g, rfl⟩
  | string escapes =>
    rw [Mode.step, if_neg hq] at hstep
    split at hstep <;> rcases hstep with hno | ⟨g, hno⟩ <;> cases hno
  | stringBackslash => rcases hstep with hno | ⟨g, hno⟩ <;> cases hno
  | name =>
    rw [Mode.step, if_neg hd] at hstep
    rcases hstep with hno | ⟨g, hno⟩ <;> cases hno
  | dollars t since =>
    rw [Mode.step, if_neg hdollar] at hstep
    rcases hstep with hno | ⟨g, hno⟩ <;> cases hno
  | block depth before =>
    rw [Mode.step, if_neg fun hno => hsl hno.1, if_neg fun hno => hstar hno.1] at hstep
    rcases hstep with hno | ⟨g, hno⟩ <;> cases hno

theorem ends_of_foldl {m : Mode} {s : Bytes} (h : ∀ c ∈ s, isEnd c = true)
    (hend : Ends (s.foldl Mode.step m)) : Ends m := by
  induction s generalizing m with
  | nil => exact hend
  | cons c s ih =>
    rw [List.forall_mem_cons] at h
    exact ends_of_step h.1 (ih h.2 hend)

/-- The end of a statement has no other symbols than those that are cut. -/
theorem symbolsFrom_end {m : Mode} {s : Bytes} (h : ∀ c ∈ s, isEnd c = true)
    (hend : Ends (s.foldl Mode.step m)) :
    ∃ z, symbolsFrom m s = m.pending ++ z ∧ ∀ x ∈ z, endSym x = true := by
  induction s generalizing m with
  | nil => exact ⟨[], (List.append_nil _).symm, nofun⟩
  | cons c s ih =>
    have hm := ends_of_foldl h hend
    rw [List.forall_mem_cons] at h
    obtain ⟨z, hz, hzend⟩ := ih h.2 hend
    rw [symbolsFrom, hz]
    rcases hm with hout | ⟨g, rfl⟩
    · obtain ⟨g, x, hstep, hemit, hx, -⟩ := outside_end hout h.1
      rw [hstep, hemit]
      refine ⟨x :: z, by simp [Mode.pending], ?_⟩
      rw [List.forall_mem_cons]
      exact ⟨hx, hzend⟩
    · by_cases hnl : isNewline c = true
      · refine ⟨.gap :: z, by simp [Mode.emit, Mode.step, Mode.pending, hnl], ?_⟩
        rw [List.forall_mem_cons]
        exact ⟨rfl, hzend⟩
      · exact ⟨z, by simp [Mode.emit, Mode.step, Mode.pending, hnl], hzend⟩

/-- A line feed is a gap, also behind a comment. -/
theorem symbolsFrom_lf {m : Mode} (hm : Ends m) (s : Bytes) :
    ∃ g, symbolsFrom m (lf :: s) = m.pending ++ .gap :: symbolsFrom (.code [] g) s := by
  rcases hm with hout | ⟨g, rfl⟩
  · obtain ⟨g, x, hstep, hemit, -, hgap⟩ := outside_end hout (show isEnd lf = true by decide)
    exact ⟨g, by simp [symbolsFrom, hstep, hemit, hgap (by decide)]⟩
  · exact ⟨g.step lf, rfl⟩

/-! ## The clause -/

theorem symbolsFrom_returning (g : Gap) (s : Bytes) :
    symbolsFrom (.code [] g) (ascii "RETURNING " ++ s) =
      texts .word (ascii "RETURNING") ++ .gap :: symbolsFrom (.code [] .closed) s := rfl

theorem symbolsFrom_name (col : Bytes) :
    symbolsFrom .name (col.flatMap (fun c => if c = doubleQuote then [doubleQuote, c] else [c]) ++
      [doubleQuote]) =
      texts .name (col.flatMap (fun c => if c = doubleQuote then [doubleQuote, c] else [c]) ++
        [doubleQuote]) := by
  induction col with
  | nil => rfl
  | cons c col ih =>
    rw [List.flatMap_cons, List.append_assoc]
    by_cases hc : c = doubleQuote
    · rw [if_pos hc, hc, texts, List.map_append, ← texts, ← texts, ← ih]
      rfl
    · rw [if_neg hc, texts, List.map_append, ← texts, ← texts, ← ih, List.singleton_append,
        symbolsFrom, Mode.step, if_neg hc]
      rfl

theorem symbolsFrom_quoteName (g : Gap) (col : Bytes) :
    symbolsFrom (.code [] g) (quoteName col) = texts .name (quoteName col) :=
  congrArg (List.cons (Sym.byte .name doubleQuote)) (symbolsFrom_name col)

/-- The bytes of a name with doubled quotes. -/
def undouble : Bytes → Bytes
  | [] => []
  | [c] => [c]
  | c :: d :: s => if c = doubleQuote ∧ d = doubleQuote then c :: undouble s else c :: undouble (d :: s)

/-- The name that a quoted identifier denotes. -/
def denoted (text : Bytes) : Bytes := undouble (text.drop 1).dropLast

theorem undouble_ne {c : UInt8} (hc : c ≠ doubleQuote) (s : Bytes) :
    undouble (c :: s) = c :: undouble s := by
  cases s with
  | nil => rfl
  | cons d s => rw [undouble, if_neg fun h => hc h.1]

theorem undouble_doubled (col : Bytes) :
    undouble (col.flatMap fun c => if c = doubleQuote then [doubleQuote, c] else [c]) = col := by
  induction col with
  | nil => rfl
  | cons c col ih =>
    rw [List.flatMap_cons]
    by_cases hc : c = doubleQuote
    · rw [if_pos hc, hc, List.cons_append, List.cons_append, undouble, if_pos ⟨rfl, rfl⟩]
      exact congrArg _ ih
    · rw [if_neg hc, List.singleton_append, undouble_ne hc, ih]

theorem denoted_quoteName (col : Bytes) : denoted (quoteName col) = col := by
  rw [denoted, quoteName, List.drop_one, List.tail_cons, List.dropLast_concat, undouble_doubled]

theorem rdropWhile_append_of_all {α : Type} {p : α → Bool} {z : List α} (x : List α)
    (h : ∀ a ∈ z, p a = true) : (x ++ z).rdropWhile p = x.rdropWhile p := by
  induction z using List.reverseRecOn with
  | nil => rw [List.append_nil]
  | append_singleton z a ih =>
    rw [← List.append_assoc, List.rdropWhile_concat_pos _ _ _ (h a (by simp)),
      ih fun b hb => h b (by simp [hb])]

/-! ## The statement with the clause -/

theorem trimEnd_append (sql : Bytes) :
    ∃ tail, sql = trimEnd sql ++ tail ∧ ∀ c ∈ tail, isEnd c = true := by
  refine ⟨sql.rtakeWhile isEnd, (List.rdropWhile_append_rtakeWhile).symm, fun c hc => ?_⟩
  exact List.mem_rtakeWhile_imp hc

section Rewritten

variable {sql : Bytes} (h : Closed sql)
include h

theorem ends_trimEnd : Ends (run (trimEnd sql)) := by
  obtain ⟨tail, hsql, htail⟩ := trimEnd_append sql
  refine ends_of_foldl htail ?_
  rw [run, ← List.foldl_append, ← hsql]
  exact h

/-- The symbols of the statement are those of the text that is left. -/
theorem stripEnd_trimEnd : stripEnd (symbols sql) = stripEnd (symbols (trimEnd sql)) := by
  obtain ⟨tail, hsql, htail⟩ := trimEnd_append sql
  have hend : Ends (tail.foldl Mode.step (run (trimEnd sql))) := by
    rw [run, ← List.foldl_append, ← hsql]
    exact h
  obtain ⟨z, hz, hzend⟩ := symbolsFrom_end htail hend
  have hsyms : symbols sql = symbols (trimEnd sql) ++ z := by
    rw [symbols_eq (trimEnd sql), List.append_assoc, ← hz, ← symbols_append, ← hsql]
  rw [hsyms, stripEnd, rdropWhile_append_of_all _ hzend, stripEnd]

theorem symbols_with (col : Bytes) :
    symbols (pgWithReturning sql col) = symbols (trimEnd sql) ++ .gap ::
      (texts .word (ascii "RETURNING") ++ .gap :: texts .name (quoteName col)) := by
  obtain ⟨g, hg⟩ := symbolsFrom_lf (ends_trimEnd h) (ascii "RETURNING " ++ quoteName col)
  rw [pgWithReturning, symbols_append, hg, symbols_eq, List.append_assoc, symbolsFrom_returning,
    symbolsFrom_quoteName]

theorem pieces_with (col : Bytes) :
    pieces (symbols (pgWithReturning sql col)) = pieces (symbols (trimEnd sql)) ++
      [texts .word (ascii "RETURNING"), texts .name (quoteName col)] := by
  have hword : pieces (texts .word (ascii "RETURNING")) = [texts .word (ascii "RETURNING")] :=
    pieces_single (by decide) (by decide)
  have hname : pieces (texts .name (quoteName col)) = [texts .name (quoteName col)] :=
    pieces_single (by simp [quoteName, texts]) (by simp [texts])
  rw [symbols_with h, pieces_append, pieces_append, hword, hname, List.singleton_append]

end Rewritten

theorem filter_stripEnd_getLast (syms : List Sym) :
    ((stripEnd syms).filter (· ≠ .gap)).getLast? ≠ some (.byte .other semicolon) := by
  rcases List.eq_nil_or_concat (stripEnd syms) with hnil | ⟨e, s, he⟩
  · rw [hnil]
    exact nofun
  · have hne : stripEnd syms ≠ [] := by simp [he]
    have hs : ¬ endSym s = true := by
      have hlast : ¬ endSym ((stripEnd syms).getLast hne) = true :=
        List.rdropWhile_last_not endSym syms hne
      simpa [he] using hlast
    have hgap : s ≠ .gap := by
      rintro rfl
      exact hs rfl
    have hkept : [s].filter (· ≠ .gap) = [s] := List.filter_cons_of_pos (decide_eq_true hgap)
    rw [he, List.concat_eq_append, List.filter_append, hkept, List.getLast?_concat]
    rintro ⟨⟩
    exact hs rfl

/-- Without the end, the pieces are the same exactly when no semicolon is left. -/
theorem pieces_stripEnd_iff (syms : List Sym) :
    pieces syms = pieces (stripEnd syms) ↔ NoSemicolon syms := by
  obtain ⟨z, hz, hzend⟩ : ∃ z, syms = stripEnd syms ++ z ∧ ∀ s ∈ z, endSym s = true :=
    ⟨syms.rtakeWhile endSym, (List.rdropWhile_append_rtakeWhile).symm, fun s hs =>
      List.mem_rtakeWhile_imp hs⟩
  have hfilter : syms.filter (· ≠ .gap) =
      (stripEnd syms).filter (· ≠ .gap) ++ z.filter (· ≠ .gap) := by
    rw [← List.filter_append, ← hz]
  constructor
  · intro h
    have hbytes := congrArg List.flatten h
    rw [flatten_pieces, flatten_pieces] at hbytes
    rw [NoSemicolon, hbytes]
    exact filter_stripEnd_getLast syms
  · intro h
    rcases List.eq_nil_or_concat (z.filter (· ≠ .gap)) with hnil | ⟨y, s, hy⟩
    · have hgaps : ∀ s ∈ z, s = .gap := by simpa [List.filter_eq_nil_iff] using hnil
      conv_lhs => rw [hz]
      exact pieces_gaps _ hgaps
    · -- The last symbol of the end would be a semicolon.
      refine absurd ?_ h
      have hs : s ∈ z.filter (· ≠ .gap) := by
        rw [hy]
        simp
      obtain ⟨hmem, hgap⟩ := List.mem_filter.mp hs
      have hend := hzend s hmem
      rw [endSym, Bool.or_eq_true, decide_eq_true_iff, decide_eq_true_iff] at hend
      rw [hfilter, hy, List.concat_eq_append, ← List.append_assoc, List.getLast?_concat,
        hend.resolve_left (of_decide_eq_true hgap)]

theorem pieces_with_iff {sql : Bytes} (h : Closed sql) (col : Bytes) :
    pieces (symbols (pgWithReturning sql col)) = pieces (stripEnd (symbols sql)) ++
        [texts .word (ascii "RETURNING"), texts .name (quoteName col)] ↔
      NoSemicolon (symbols (trimEnd sql)) := by
  rw [pieces_with h, stripEnd_trimEnd h, List.append_left_inj, pieces_stripEnd_iff]

end PgInsert

end Look
