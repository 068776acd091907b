/-
What `pg_insert_target` returns.

The name is read up to white space or a bracket.  The table is named by the longest run of words and
quoted names with dots between them, and these may have white space around.
-/
import Look.Postgres.Insert

namespace Look

namespace PgInsert

open Postgres (Bytes)
open PgLex

/-! ## The target of a statement -/

def upperSym : Sym → Sym
  | .gap => .gap
  | .byte kind c => .byte kind (toUpper c)

/-- A token can be a part of the name of a table. -/
def isPart (t : List Sym) : Bool :=
  match t.head? with
  | some (.byte .word _) | some (.byte .name _) => true
  | _ => false

def dotToken : List Sym := [.byte .other dot]

/-- The longest name with dots. -/
def dotted : List (List Sym) → List (List Sym)
  | p :: d :: q :: rest => if d = dotToken ∧ isPart q then p :: d :: dotted (q :: rest) else [p]
  | p :: _ => [p]
  | [] => []

def targetOf : List (List Sym) → List (List Sym)
  | a :: b :: p :: rest =>
    if a.map upperSym = texts .word (ascii "INSERT") ∧ b.map upperSym = texts .word (ascii "INTO") ∧
        isPart p then
      dotted (p :: rest)
    else []
  | _ => []

/-- The tokens that name the table. -/
def target (sql : Bytes) : List (List Sym) := targetOf (tokens (symbols sql))

/-- The name has at most three parts, and no dot follows it. -/
structure ValidTarget (sql : Bytes) : Prop where
  parts : (target sql).count dotToken ≤ 2
  ended : ((tokens (symbols sql)).drop (2 + (target sql).length)).head? ≠ some dotToken

/-! ## Texts -/

def WordText (w : Bytes) : Prop :=
  ∃ c cs, w = c :: cs ∧ identStart c = true ∧ ∀ d ∈ cs, identChar d = true

/-- A part of a name, as it is written. -/
def PartText (p : Bytes) : Prop :=
  WordText p ∨ ∃ x, p = doubleQuote :: x ∧ readQuoted doubleQuote x = some (x, [])

/-- The parts of a name, joined by dots. -/
def joinDots : List Bytes → Bytes
  | [] => []
  | [p] => p
  | p :: q :: ps => p ++ dot :: joinDots (q :: ps)

/-- What stands before the name. -/
structure Lead where
  before : Bytes
  insert : Bytes
  between : Bytes
  into : Bytes
  behind : Bytes
  beforeOk : ∀ c ∈ before, isSpace c = true
  insertOk : insert.map toUpper = ascii "INSERT"
  betweenOk : ∀ c ∈ between, isSpace c = true
  betweenNe : between ≠ []
  intoOk : into.map toUpper = ascii "INTO"
  behindOk : ∀ c ∈ behind, isSpace c = true

def Lead.text (l : Lead) (s : Bytes) : Bytes :=
  l.before ++ (l.insert ++ (l.between ++ (l.into ++ (l.behind ++ s))))

/-- The keyword ends before the name. -/
def Lead.Separate (l : Lead) (name : Bytes) : Prop :=
  l.behind ≠ [] ∨ name.head? = some doubleQuote

/-- A name with white space between it and one of its dots. -/
def SplitName (sql : Bytes) : Prop :=
  ∃ (l : Lead) (ps : List Bytes) (c : UInt8) (rest : Bytes),
    sql = l.text (joinDots ps ++ c :: rest) ∧ l.Separate (joinDots ps) ∧ ps ≠ [] ∧ ps.length ≤ 3 ∧
      (∀ p ∈ ps, PartText p) ∧ ps.head? ≠ some [doubleQuote, doubleQuote] ∧ isSpace c = true ∧
        (tokens (symbols rest)).head? = some dotToken

/-! ## Quoted texts -/

section Quoted

variable {q : UInt8} {s x y : Bytes}

theorem readQuoted_cons {c : UInt8} (hc : c ≠ q) (s : Bytes) :
    readQuoted q (c :: s) = (readQuoted q s).map fun (x, y) => (c :: x, y) := by
  cases s with
  | nil => exact if_neg hc
  | cons d s => rw [readQuoted, if_neg hc]

theorem readQuoted_double (s : Bytes) :
    readQuoted q (q :: q :: s) = (readQuoted q s).map fun (x, y) => (q :: q :: x, y) := by
  rw [readQuoted, if_pos rfl, if_pos rfl]

theorem readQuoted_end (hs : s.head? ≠ some q) : readQuoted q (q :: s) = some ([q], s) := by
  cases s with
  | nil => exact if_pos rfl
  | cons d s => rw [readQuoted, if_pos rfl, if_neg fun h => hs (congrArg some h)]

theorem readQuoted_self (h : readQuoted q s = some (x, y)) : readQuoted q x = some (x, []) := by
  fun_induction readQuoted q s generalizing x with
  | case1 => cases h
  | case2 => cases h; exact readQuoted_end (by rintro ⟨⟩)
  | case3 => cases h
  | case4 s ih =>
    obtain ⟨⟨x', y'⟩, hread, heq⟩ := Option.map_eq_some_iff.mp h
    cases heq
    rw [readQuoted_double, ih hread]
    rfl
  | case5 => cases h; exact readQuoted_end (by rintro ⟨⟩)
  | case6 c d s hc ih =>
    obtain ⟨⟨x', y'⟩, hread, heq⟩ := Option.map_eq_some_iff.mp h
    cases heq
    rw [readQuoted_cons hc, ih hread]
    rfl

theorem readQuoted_append (h : readQuoted q s = some (x, [])) (hy : y.head? ≠ some q) :
    readQuoted q (s ++ y) = some (x, y) := by
  fun_induction readQuoted q s generalizing x with
  | case1 => cases h
  | case2 => cases h; exact readQuoted_end hy
  | case3 => cases h
  | case4 s ih =>
    obtain ⟨⟨x', y'⟩, hread, heq⟩ := Option.map_eq_some_iff.mp h
    cases heq
    rw [List.cons_append, List.cons_append, readQuoted_double, ih hread]
    rfl
  | case5 => cases h
  | case6 c d s hc ih =>
    obtain ⟨⟨x', y'⟩, hread, heq⟩ := Option.map_eq_some_iff.mp h
    cases heq
    rw [List.cons_append, readQuoted_cons hc, ih hread]
    rfl

/-- The bytes of a quoted name. -/
theorem symbolsFrom_quoted (h : readQuoted doubleQuote s = some (x, y)) :
    symbolsFrom .name s = texts .name x ++ symbolsFrom .nameQuote y := by
  fun_induction readQuoted doubleQuote s generalizing x with
  | case1 => cases h
  | case2 => cases h; rfl
  | case3 => cases h
  | case4 s ih =>
    obtain ⟨⟨x', y'⟩, hread, heq⟩ := Option.map_eq_some_iff.mp h
    cases heq
    have hrest := ih hread
    exact congrArg (fun l => .byte .name doubleQuote :: .byte .name doubleQuote :: l) hrest
  | case5 => cases h; rfl
  | case6 c d s hc ih =>
    obtain ⟨⟨x', y'⟩, hread, heq⟩ := Option.map_eq_some_iff.mp h
    cases heq
    rw [symbolsFrom, Mode.step, if_neg hc, ih hread]
    rfl

end Quoted

/-! ## The tokens of a name -/

/-- Outside, with no word begun. -/
def codeSymbols (s : Bytes) : List Sym := symbolsFrom (.code [] .closed) s

/-- White space, a bracket, a dot or a quoted name. -/
def isBoundary (c : UInt8) : Bool := isSpace c || c = 40 || c = dot || c = doubleQuote

theorem boundary_char : ∀ c : UInt8, isBoundary c = true → identChar c = false :=
  forall_byte (by decide +kernel)

theorem boundary_plain (c : UInt8) (h : isBoundary c = true) :
    c ≠ PgLex.quote ∧ c ≠ PgLex.minus ∧ c ≠ PgLex.slash ∧ identStart c = false ∧
      identCont c = false ∧ c ≠ dollar := by
  have hchar := boundary_char c h
  refine ⟨?_, ?_, ?_, Bool.eq_false_iff.mpr fun hstart => ?_, hchar, ?_⟩
  case refine_4 => exact Bool.false_ne_true (hchar.symm.trans (identStart_char c hstart))
  all_goals
    rintro rfl
    exact absurd h (by decide)

theorem identChar_plain (c : UInt8) (h : identChar c = true) :
    c ≠ PgLex.quote ∧ c ≠ doubleQuote ∧ c ≠ PgLex.minus ∧ c ≠ PgLex.slash ∧
      isBoundary c = false := by
  refine ⟨?_, ?_, ?_, ?_, Bool.eq_false_iff.mpr fun hbound => ?_⟩
  case refine_5 => exact Bool.false_ne_true ((boundary_char c hbound).symm.trans h)
  all_goals
    rintro rfl
    exact absurd h (by decide)

theorem space_boundary (c : UInt8) (h : isSpace c = true) :
    isBoundary c = true ∧ c ≠ doubleQuote := by
  refine ⟨by rw [isBoundary, h, Bool.true_or, Bool.true_or, Bool.true_or], ?_⟩
  rintro rfl
  exact absurd h (by decide)

theorem glued_other_right (c : UInt8) (t : Sym) : glued t (.byte .other c) = false := by
  cases t with
  | gap => rfl
  | byte kind _ => cases kind <;> rfl

theorem codeStep_boundary {c : UInt8} (h : isBoundary c = true) (w : Bytes) :
    codeStep w .closed c = codeStep [] .closed c ∧ codeEmit w c = codeEmit [] c ∧
      ∃ s, codeEmit [] c = [s] ∧ (∀ d, glued (.byte .word d) s = false) ∧
        (c ≠ doubleQuote → ∀ t, glued t s = false) := by
  obtain ⟨hq, hm, hs, hstart, hcont, hdollar⟩ := boundary_plain c h
  have hword : ∀ v : Bytes, ¬ (identStart c = true ∨ v ≠ [] ∧ identCont c = true) := by
    simp [hstart, hcont]
  refine ⟨?_, ?_, ?_⟩
  · rw [codeStep, codeStep, if_neg hq, if_neg hq, if_neg hm, if_neg hm, if_neg hs, if_neg hs,
      if_neg (hword w), if_neg (hword []), if_neg hdollar]
  · rw [codeEmit, codeEmit, if_neg (hword w), if_neg (hword [])]
  · by_cases hd : c = doubleQuote
    · exact ⟨.byte .name c, by rw [codeEmit, if_neg hq, if_pos hd], fun _ => rfl,
        fun hne => absurd hd hne⟩
    · rw [codeEmit, if_neg hq, if_neg hd, if_neg (by simp [hm, hs]), if_neg (hword []),
        if_neg hdollar]
      split
      · exact ⟨.gap, rfl, fun _ => rfl, fun _ => glued_gap_right⟩
      · exact ⟨.byte .other c, rfl, fun _ => rfl, fun _ => glued_other_right c⟩

/-- Behind a word, a boundary is read as it is elsewhere. -/
theorem symbolsFrom_boundary {s : Bytes} (h : ∀ c ∈ s.head?, isBoundary c = true) (w : Bytes) :
    symbolsFrom (.code w .closed) s = codeSymbols s ∧
      (∀ d, ∀ u ∈ (codeSymbols s).head?, glued (.byte .word d) u = false) ∧
        (s.head? ≠ some doubleQuote → ∀ t, ∀ u ∈ (codeSymbols s).head?, glued t u = false) := by
  cases s with
  | nil => exact ⟨rfl, nofun, nofun⟩
  | cons c s =>
    obtain ⟨hstep, hemit, x, hx, hword, hall⟩ := codeStep_boundary (h c rfl) w
    have hsyms : codeSymbols (c :: s) = x :: symbolsFrom (codeStep [] .closed c) s :=
      congrArg (· ++ symbolsFrom (codeStep [] .closed c) s) hx
    refine ⟨?_, ?_, ?_⟩
    · rw [hsyms, symbolsFrom, Mode.emit, hemit, hx, Mode.step, hstep]
      rfl
    · intro d u hu
      rw [hsyms] at hu
      rw [← Option.mem_some_iff.mp hu]
      exact hword d
    · intro hne t u hu
      rw [hsyms] at hu
      rw [← Option.mem_some_iff.mp hu]
      exact hall (fun hd => hne (congrArg some hd)) t

theorem symbolsFrom_word {w cs : Bytes} (hw : w ≠ []) (h : ∀ c ∈ cs, identChar c = true)
    (s : Bytes) :
    symbolsFrom (.code w .closed) (cs ++ s) =
      texts .word cs ++ symbolsFrom (.code (w ++ cs) .closed) s := by
  induction cs generalizing w with
  | nil => rw [List.append_nil]; rfl
  | cons c cs ih =>
    rw [List.forall_mem_cons] at h
    obtain ⟨hq, hd, hm, hs, -⟩ := identChar_plain c h.1
    have hword : identStart c = true ∨ w ≠ [] ∧ identCont c = true := Or.inr ⟨hw, h.1⟩
    rw [List.cons_append, symbolsFrom, Mode.emit, codeEmit, if_neg hq, if_neg hd,
      if_neg (by simp [hm, hs]), if_pos hword, Mode.step, codeStep, if_neg hq, if_neg hd, if_neg hm,
      if_neg hs, if_pos hword, ih (by simp) h.2, List.append_assoc]
    rfl

theorem codeSymbols_word {w : Bytes} (hw : WordText w) (s : Bytes) :
    codeSymbols (w ++ s) = texts .word w ++ symbolsFrom (.code w .closed) s := by
  obtain ⟨c, cs, rfl, hc, hcs⟩ := hw
  obtain ⟨hq, hd, hm, hs, -⟩ := identChar_plain c (identStart_char c hc)
  have hword : identStart c = true ∨ ([] : Bytes) ≠ [] ∧ identCont c = true := Or.inl hc
  rw [codeSymbols, List.cons_append, symbolsFrom, Mode.emit, codeEmit, if_neg hq, if_neg hd,
    if_neg (by simp [hm, hs]), if_pos hword, Mode.step, codeStep, if_neg hq, if_neg hd, if_neg hm,
    if_neg hs, if_pos hword, symbolsFrom_word (by simp) hcs]
  rfl

theorem tokens_texts {kind : Kind} (hkind : kind ≠ .other) {w : Bytes} (hw : w ≠ []) :
    tokens (texts kind w) = [texts kind w] := by
  have hne : texts kind w ≠ [] := by simpa [texts] using hw
  have hpair : ∀ c d, glued (.byte kind c) (.byte kind d) = true := by
    intro c d
    cases kind with
    | other => exact absurd rfl hkind
    | word | name | string => rfl
  have hchain : (texts kind w).IsChain fun x y => glued x y = true :=
    (List.pairwise_map.mpr (List.pairwise_of_forall hpair)).isChain
  rw [tokens, pieces_single hne (by simp [texts]), List.flatMap_singleton,
    List.splitBy_of_isChain hne hchain]

theorem tokens_word {w s : Bytes} (hw : WordText w) (hs : ∀ c ∈ s.head?, isBoundary c = true) :
    tokens (codeSymbols (w ++ s)) = texts .word w :: tokens (codeSymbols s) := by
  obtain ⟨hsyms, hglued, -⟩ := symbolsFrom_boundary hs w
  have hne : w ≠ [] := by
    obtain ⟨c, cs, rfl, -⟩ := hw
    exact List.cons_ne_nil c cs
  rw [codeSymbols_word hw, hsyms, tokens_append, tokens_texts (by decide) hne]
  · rfl
  · intro x hx t ht
    obtain ⟨d, -, rfl⟩ := List.mem_map.mp (List.mem_of_getLast? hx)
    exact hglued d t ht

theorem tokens_blanks {ws : Bytes} (h : ∀ c ∈ ws, isSpace c = true) (s : Bytes) :
    tokens (codeSymbols (ws ++ s)) = tokens (codeSymbols s) := by
  induction ws with
  | nil => rfl
  | cons c ws ih =>
    rw [List.forall_mem_cons] at h
    have hsyms : codeSymbols (c :: (ws ++ s)) = [] ++ .gap :: codeSymbols (ws ++ s) := by
      obtain ⟨hq, hm, hs, hstart, hcont, hdollar⟩ := boundary_plain c (space_boundary c h.1).1
      have hd := (space_boundary c h.1).2
      have hword : ¬ (identStart c = true ∨ ([] : Bytes) ≠ [] ∧ identCont c = true) := by
        simp [hstart]
      rw [codeSymbols, symbolsFrom, Mode.emit, codeEmit, if_neg hq, if_neg hd,
        if_neg (by simp [hm, hs]), if_neg hword, if_neg hdollar, if_pos h.1, Mode.step, codeStep,
        if_neg hq, if_neg hd, if_neg hm, if_neg hs, if_neg hword, if_neg hdollar]
      rfl
    rw [List.cons_append, hsyms, tokens_append_gap, ih h.2]
    rfl

theorem tokens_other {c : UInt8} (h : ∀ s, codeSymbols (c :: s) = .byte .other c :: codeSymbols s)
    (s : Bytes) : tokens (codeSymbols (c :: s)) = [.byte .other c] :: tokens (codeSymbols s) := by
  rw [h, ← List.singleton_append, tokens_append fun x hx t _ => by
    rw [← Option.mem_some_iff.mp hx]
    rfl]
  rfl

theorem codeSymbols_dot (s : Bytes) : codeSymbols (dot :: s) = .byte .other dot :: codeSymbols s :=
  rfl

theorem codeSymbols_bracket (s : Bytes) : codeSymbols (40 :: s) = .byte .other 40 :: codeSymbols s :=
  rfl

/-- The token of a part. -/
def partToken (p : Bytes) : List Sym :=
  if p.head? = some doubleQuote then texts .name p else texts .word p

def dotTokens : List Bytes → List (List Sym)
  | [] => []
  | [p] => [partToken p]
  | p :: q :: ps => partToken p :: dotToken :: dotTokens (q :: ps)

theorem WordText.head_ne {w : Bytes} (hw : WordText w) : w.head? ≠ some doubleQuote := by
  obtain ⟨c, cs, rfl, hc, -⟩ := hw
  rintro ⟨⟩
  cases hc

theorem partToken_word {w : Bytes} (hw : WordText w) : partToken w = texts .word w :=
  if_neg hw.head_ne

theorem isPart_partToken {p : Bytes} (hp : PartText p) : isPart (partToken p) = true := by
  rcases hp with hw | ⟨x, rfl, -⟩
  · rw [partToken_word hw]
    obtain ⟨c, cs, rfl, -⟩ := hw
    rfl
  · rfl

theorem partToken_ne_dot {p : Bytes} (hp : PartText p) : partToken p ≠ dotToken := by
  intro h
  have hpart := isPart_partToken hp
  rw [h] at hpart
  cases hpart

/-- Behind a quoted name that has ended, another byte than a quote is read as elsewhere. -/
theorem symbolsFrom_nameQuote {s : Bytes} (h : s.head? ≠ some doubleQuote) :
    symbolsFrom .nameQuote s = codeSymbols s := by
  cases s with
  | nil => rfl
  | cons c s =>
    have hc : c ≠ doubleQuote := fun hd => h (congrArg some hd)
    rw [symbolsFrom, Mode.emit, if_neg hc, Mode.step, if_neg hc]
    rfl

section Names

variable {s : Bytes} (hs : ∀ c ∈ s.head?, isBoundary c = true ∧ c ≠ doubleQuote)
include hs

theorem tokens_part {p : Bytes} (hp : PartText p) :
    tokens (codeSymbols (p ++ s)) = partToken p :: tokens (codeSymbols s) := by
  rcases hp with hw | ⟨x, rfl, hx⟩
  · rw [partToken_word hw]
    exact tokens_word hw fun c hc => (hs c hc).1
  · have hend : s.head? ≠ some doubleQuote := fun h => (hs _ h).2 rfl
    have hsyms : codeSymbols (doubleQuote :: x ++ s) =
        texts .name (doubleQuote :: x) ++ codeSymbols s := by
      have hname := symbolsFrom_quoted (readQuoted_append hx hend)
      rw [symbolsFrom_nameQuote hend] at hname
      exact congrArg (List.cons (.byte .name doubleQuote)) hname
    have hglued := (symbolsFrom_boundary (fun c hc => (hs c hc).1) []).2.2 hend
    rw [hsyms, tokens_append fun t _ u hu => hglued t u hu, tokens_texts (by decide) (by simp)]
    rfl

theorem tokens_joinDots {ps : List Bytes} (hps : ∀ p ∈ ps, PartText p) :
    tokens (codeSymbols (joinDots ps ++ s)) = dotTokens ps ++ tokens (codeSymbols s) := by
  induction ps with
  | nil => rfl
  | cons p ps ih =>
    rw [List.forall_mem_cons] at hps
    cases ps with
    | nil => exact tokens_part hs hps.1
    | cons q ps =>
      have hdot : ∀ c ∈ (dot :: (joinDots (q :: ps) ++ s)).head?,
          isBoundary c = true ∧ c ≠ doubleQuote := by
        rintro c ⟨⟩
        exact ⟨by decide, by decide⟩
      rw [joinDots, List.append_assoc, List.cons_append, tokens_part hdot hps.1,
        tokens_other codeSymbols_dot,
        ih hps.2]
      rfl

end Names

/-- What is a keyword in other case is a word. -/
theorem keyword_word {w kw : Bytes} (h : w.map toUpper = kw) (hne : kw ≠ [])
    (hkw : ∀ c ∈ kw, identStart c = true) : WordText w := by
  have hstart : ∀ c ∈ w, identStart c = true := fun c hc =>
    toUpper_start c (hkw _ (h ▸ List.mem_map_of_mem hc))
  cases w with
  | nil => exact absurd h.symm hne
  | cons c cs =>
    rw [List.forall_mem_cons] at hstart
    exact ⟨c, cs, rfl, hstart.1, fun d hd => identStart_char d (hstart.2 d hd)⟩

theorem insert_start : (ascii "INSERT").all identStart = true := by
  decide

theorem into_start : (ascii "INTO").all identStart = true := by
  decide

theorem Lead.insert_word (l : Lead) : WordText l.insert :=
  keyword_word l.insertOk (by decide) (List.all_eq_true.mp insert_start)

theorem Lead.into_word (l : Lead) : WordText l.into :=
  keyword_word l.intoOk (by decide) (List.all_eq_true.mp into_start)

theorem head_boundary {ws s : Bytes} (h : ∀ c ∈ ws, isSpace c = true)
    (hs : ws ≠ [] ∨ s.head? = some doubleQuote) :
    ∀ c ∈ (ws ++ s).head?, isBoundary c = true := by
  intro c hc
  cases ws with
  | nil =>
    rw [List.nil_append, hs.resolve_left fun hne => hne rfl] at hc
    rw [← Option.mem_some_iff.mp hc]
    decide
  | cons d ws =>
    rw [← Option.mem_some_iff.mp hc]
    exact (space_boundary d (h d List.mem_cons_self)).1

/-- The two keywords are tokens before those of the name. -/
theorem tokens_lead (l : Lead) {s : Bytes} (hs : l.behind ≠ [] ∨ s.head? = some doubleQuote) :
    tokens (symbols (l.text s)) =
      texts .word l.insert :: texts .word l.into :: tokens (codeSymbols s) := by
  have hbetween := head_boundary (s := l.into ++ (l.behind ++ s)) l.betweenOk (Or.inl l.betweenNe)
  rw [symbols, start, ← codeSymbols, Lead.text, tokens_blanks l.beforeOk,
    tokens_word l.insert_word hbetween, tokens_blanks l.betweenOk,
    tokens_word l.into_word (head_boundary l.behindOk hs), tokens_blanks l.behindOk]

theorem upperSym_texts (kind : Kind) (w : Bytes) :
    (texts kind w).map upperSym = texts kind (w.map toUpper) := by
  rw [texts, texts, List.map_map, List.map_map]
  rfl

theorem target_lead (l : Lead) {s : Bytes} (hs : l.behind ≠ [] ∨ s.head? = some doubleQuote)
    {p : List Sym} {rest : List (List Sym)} (hp : isPart p = true)
    (htokens : tokens (codeSymbols s) = p :: rest) : target (l.text s) = dotted (p :: rest) := by
  rw [target, tokens_lead l hs, htokens, targetOf, upperSym_texts, upperSym_texts, l.insertOk,
    l.intoOk, if_pos ⟨rfl, rfl, hp⟩]

theorem dotTokens_cons (q : Bytes) (ps : List Bytes) :
    ∃ more, dotTokens (q :: ps) = partToken q :: more := by
  cases ps with
  | nil => exact ⟨[], rfl⟩
  | cons r ps => exact ⟨_, rfl⟩

theorem dotted_cons (p : Bytes) {q : Bytes} (hq : PartText q) (ps : List Bytes)
    (more : List (List Sym)) :
    dotted (dotTokens (p :: q :: ps) ++ more) =
      partToken p :: dotToken :: dotted (dotTokens (q :: ps) ++ more) := by
  obtain ⟨tail, htail⟩ := dotTokens_cons q ps
  rw [dotTokens, List.cons_append, List.cons_append, htail, List.cons_append, dotted,
    if_pos ⟨rfl, isPart_partToken hq⟩]

/-- A name ends where no further part follows a dot. -/
theorem dotted_ended {ps : List Bytes} (hne : ps ≠ []) (hps : ∀ p ∈ ps, PartText p)
    {more : List (List Sym)} (hmore : ∀ q rest, more = dotToken :: q :: rest → isPart q = false) :
    dotted (dotTokens ps ++ more) = dotTokens ps := by
  induction ps with
  | nil => exact absurd rfl hne
  | cons p ps ih =>
    rw [List.forall_mem_cons] at hps
    cases ps with
    | nil =>
      match more, hmore with
      | [], _ => rfl
      | [_], _ => rfl
      | d :: q :: rest, hmore =>
        have hnot : ¬ (d = dotToken ∧ isPart q = true) := by
          rintro ⟨rfl, hq⟩
          rw [hmore q rest rfl] at hq
          cases hq
        exact if_neg hnot
    | cons q ps =>
      rw [dotted_cons p (hps.2 q List.mem_cons_self), ih (List.cons_ne_nil q ps) hps.2]
      rfl

/-- A dot and a part go on with the name. -/
theorem dotted_more {ps : List Bytes} (hne : ps ≠ []) (hps : ∀ p ∈ ps, PartText p)
    {q : List Sym} (hq : isPart q = true) (rest : List (List Sym)) :
    dotted (dotTokens ps ++ dotToken :: q :: rest) =
      dotTokens ps ++ dotToken :: dotted (q :: rest) := by
  induction ps with
  | nil => exact absurd rfl hne
  | cons p ps ih =>
    rw [List.forall_mem_cons] at hps
    cases ps with
    | nil => exact if_pos ⟨rfl, hq⟩
    | cons r ps =>
      rw [dotted_cons p (hps.2 r List.mem_cons_self), ih (List.cons_ne_nil r ps) hps.2]
      rfl

theorem count_dotTokens {ps : List Bytes} (hne : ps ≠ []) (hps : ∀ p ∈ ps, PartText p) :
    (dotTokens ps).count dotToken + 1 = ps.length := by
  induction ps with
  | nil => exact absurd rfl hne
  | cons p ps ih =>
    rw [List.forall_mem_cons] at hps
    have hp := partToken_ne_dot hps.1
    cases ps with
    | nil => rw [dotTokens, List.count_singleton, beq_eq_false_iff_ne.mpr hp]; rfl
    | cons q ps =>
      have hrest := ih (List.cons_ne_nil q ps) hps.2
      rw [dotTokens, List.count_cons_of_ne hp, List.count_cons_self, hrest]
      rfl

/-! ## What is read -/

theorem keyword_some {kw s rest : Bytes} (h : keyword kw s = some rest) :
    ∃ w, s = w ++ rest ∧ w.map toUpper = kw ∧ ∀ c ∈ rest.head?, identChar c = false := by
  rw [keyword] at h
  split at h
  · rename_i hkw
    cases h
    refine ⟨s.take kw.length, (List.take_append_drop _ s).symm, hkw.1, fun c hc => ?_⟩
    have hany := hkw.2
    rw [Option.mem_def] at hc
    rw [hc] at hany
    simpa using hany
  · cases h

theorem keyword_append {kw w rest : Bytes} (hw : w.map toUpper = kw)
    (hrest : ∀ c ∈ rest.head?, identChar c = false) : keyword kw (w ++ rest) = some rest := by
  have hlen : w.length = kw.length := by rw [← hw, List.length_map]
  have hhead : ¬ rest.head?.any identChar = true := by
    cases rest with
    | nil => exact Bool.false_ne_true
    | cons c rest => simp [hrest c rfl]
  rw [keyword, ← hlen, List.take_left, List.drop_left, if_pos ⟨hw, hhead⟩]

theorem skipWs_append {ws s : Bytes} (h : ∀ c ∈ ws, isSpace c = true)
    (hs : ∀ c ∈ s.head?, isSpace c = false) : skipWs (ws ++ s) = s := by
  rw [skipWs, List.dropWhile_append_of_pos h]
  cases s with
  | nil => rfl
  | cons c s => exact List.dropWhile_cons_of_neg (by simp [hs c rfl])

theorem skipWs_split (s : Bytes) :
    ∃ ws, s = ws ++ skipWs s ∧ ∀ c ∈ ws, isSpace c = true :=
  ⟨s.takeWhile isSpace, (List.takeWhile_append_dropWhile).symm, fun _ hc =>
    List.mem_takeWhile_imp hc⟩

theorem readPart_some {s p rest : Bytes} (h : readPart s = some (p, rest)) :
    s = p ++ rest ∧ PartText p := by
  cases s with
  | nil => cases h
  | cons c s =>
    rw [readPart] at h
    split at h
    · rename_i hc
      obtain ⟨⟨x, y⟩, hread, heq⟩ := Option.map_eq_some_iff.mp h
      cases heq
      rw [hc, readQuoted_eq hread]
      exact ⟨rfl, Or.inr ⟨x, rfl, readQuoted_self hread⟩⟩
    · split at h
      · rename_i hc
        cases h
        refine ⟨(List.takeWhile_append_dropWhile).symm, Or.inl ⟨c, s.takeWhile identChar, ?_, hc,
          fun d hd => List.mem_takeWhile_imp hd⟩⟩
        exact List.takeWhile_cons_of_pos (identStart_char c hc)
      · cases h

theorem identStart_ne (c : UInt8) (h : identStart c = true) : c ≠ doubleQuote :=
  (identChar_plain c (identStart_char c h)).2.1

theorem readPart_append {p s : Bytes} (hp : PartText p)
    (hs : ∀ c ∈ s.head?, isBoundary c = true ∧ c ≠ doubleQuote) :
    readPart (p ++ s) = some (p, s) := by
  rcases hp with ⟨c, cs, rfl, hc, hcs⟩ | ⟨x, rfl, hx⟩
  · have hall : ∀ d ∈ c :: cs, identChar d = true :=
      List.forall_mem_cons.mpr ⟨identStart_char c hc, hcs⟩
    have hend : s.takeWhile identChar = [] ∧ s.dropWhile identChar = s := by
      cases s with
      | nil => exact ⟨rfl, rfl⟩
      | cons d s =>
        have hd := boundary_char d (hs d rfl).1
        exact ⟨List.takeWhile_cons_of_neg (by simp [hd]), List.dropWhile_cons_of_neg (by simp [hd])⟩
    rw [List.cons_append, readPart, if_neg (identStart_ne c hc), if_pos hc, ← List.cons_append,
      List.takeWhile_append_of_pos hall, List.dropWhile_append_of_pos hall, hend.1, hend.2,
      List.append_nil]
  · rw [List.cons_append, readPart, if_pos rfl,
      readQuoted_append hx fun h => (hs _ h).2 rfl]
    rfl

theorem PartText.length {p : Bytes} (hp : PartText p) :
    1 ≤ p.length ∧ (p.head? = some doubleQuote → 2 ≤ p.length) := by
  rcases hp with ⟨c, cs, rfl, hc, -⟩ | ⟨x, rfl, hx⟩
  · exact ⟨by simp, fun h => absurd (Option.some.inj h) (identStart_ne c hc)⟩
  · cases x with
    | nil => cases hx
    | cons d x => simp

/-- The parts that are read, and the dot that is read behind the last one possible. -/
theorem readName_some {n : Nat} {read s name rest : Bytes}
    (h : readName n read s = some (name, rest)) :
    ∃ ps : List Bytes, (∀ p ∈ ps, PartText p) ∧ ps.length ≤ n ∧
      (read = [] → ps.head? ≠ some [doubleQuote, doubleQuote]) ∧
        ((ps ≠ [] ∧ name = read ++ joinDots ps ∧ s = joinDots ps ++ rest) ∨
          (ps.length = n ∧ name = read ++ ps.flatMap (· ++ [dot]) ∧
            s = ps.flatMap (· ++ [dot]) ++ rest)) := by
  induction n generalizing read s with
  | zero =>
    cases h
    exact ⟨[], nofun, Nat.le_refl 0, fun _ => nofun, Or.inr ⟨rfl, by simp, rfl⟩⟩
  | succ n ih =>
    rw [readName] at h
    cases hpart : readPart s with
    | none => rw [hpart] at h; cases h
    | some r =>
      obtain ⟨p, behind⟩ := r
      obtain ⟨rfl, hp⟩ := readPart_some hpart
      rw [hpart] at h
      dsimp only at h
      split at h
      · cases h
      rename_i hshort
      have hfirst : read = [] → (p :: ([] : List Bytes)).head? ≠ some [doubleQuote, doubleQuote] := by
        rintro rfl hno
        rw [Option.some.inj hno] at hshort
        exact hshort ⟨rfl, by decide⟩
      have hsingle : ∀ q ∈ [p], PartText q := fun q hq => List.mem_singleton.mp hq ▸ hp
      split at h
      · cases h
        exact ⟨[p], hsingle, by simp, hfirst, Or.inl ⟨by simp, rfl, rfl⟩⟩
      · rename_i c behind
        split at h
        · rename_i hc
          obtain ⟨ps, hps, hlen, -, hname⟩ := ih h
          refine ⟨p :: ps, List.forall_mem_cons.mpr ⟨hp, hps⟩, Nat.succ_le_succ hlen, hfirst, ?_⟩
          rcases hname with ⟨hne, hname, hs⟩ | ⟨hlen, hname, hs⟩
          · obtain ⟨q, ps, rfl⟩ := List.exists_cons_of_ne_nil hne
            refine Or.inl ⟨List.cons_ne_nil p _, ?_, ?_⟩
            · rw [hname, joinDots, hc]
              simp
            · rw [hs, joinDots, hc]
              simp
          · refine Or.inr ⟨congrArg Nat.succ hlen, ?_, ?_⟩
            · rw [hname, hc]
              simp
            · rw [hs, hc]
              simp
        · cases h
          exact ⟨[p], hsingle, by simp, hfirst, Or.inl ⟨by simp, rfl, rfl⟩⟩

/-- A name with at most so many parts is read up to its end. -/
theorem readName_append {n : Nat} {ps : List Bytes} (hne : ps ≠ []) (hlen : ps.length ≤ n)
    (hps : ∀ p ∈ ps, PartText p) {read s : Bytes}
    (hread : ∀ p ∈ ps.head?, p.head? = some doubleQuote → 3 ≤ (read ++ p).length)
    (hs : ∀ c ∈ s.head?, isBoundary c = true ∧ c ≠ doubleQuote ∧ c ≠ dot) :
    readName n read (joinDots ps ++ s) = some (read ++ joinDots ps, s) := by
  induction n generalizing ps read with
  | zero => exact absurd (List.length_eq_zero_iff.mp (Nat.le_zero.mp hlen)) hne
  | succ n ih =>
    obtain ⟨p, ps, rfl⟩ := List.exists_cons_of_ne_nil hne
    rw [List.forall_mem_cons] at hps
    have hhead : ∀ t : Bytes, (p ++ t).head? = p.head? := by
      intro t
      cases p with
      | nil => exact absurd hps.1.length.1 (by decide)
      | cons c p => rfl
    have hlong : ∀ t : Bytes, ¬ ((p ++ t).head? = some doubleQuote ∧ (read ++ p).length < 3) := by
      rintro t ⟨hq, hshort⟩
      rw [hhead] at hq
      exact absurd hshort (Nat.not_lt.mpr (hread p rfl hq))
    cases ps with
    | nil =>
      have hend : ∀ c ∈ s.head?, isBoundary c = true ∧ c ≠ doubleQuote := fun c hc =>
        ⟨(hs c hc).1, (hs c hc).2.1⟩
      rw [joinDots, readName, readPart_append hps.1 hend]
      dsimp only
      rw [if_neg (hlong s)]
      cases s with
      | nil => rfl
      | cons c s => exact if_neg (hs c rfl).2.2
    | cons q ps =>
      have hdot : ∀ c ∈ (dot :: (joinDots (q :: ps) ++ s)).head?,
          isBoundary c = true ∧ c ≠ doubleQuote := by
        rintro c ⟨⟩
        exact ⟨by decide, by decide⟩
      have hnext : ∀ r ∈ (q :: ps).head?, r.head? = some doubleQuote →
          3 ≤ (read ++ p ++ [dot] ++ r).length := by
        rintro _ ⟨⟩ hquoted
        have hp := hps.1.length.1
        have hq := (hps.2 q List.mem_cons_self).length.2 hquoted
        simp only [List.length_append, List.length_singleton]
        omega
      have hrest := ih (List.cons_ne_nil q ps) (Nat.le_of_succ_le_succ hlen) hps.2 hnext
      rw [joinDots, List.append_assoc, List.cons_append, readName, readPart_append hps.1 hdot]
      dsimp only
      rw [if_neg (hlong _), if_pos rfl, hrest]
      simp

/-! ## The target that is returned -/

theorem flatMap_dots {ps : List Bytes} (hne : ps ≠ []) :
    ps.flatMap (· ++ [dot]) = joinDots ps ++ [dot] := by
  induction ps with
  | nil => exact absurd rfl hne
  | cons p ps ih =>
    cases ps with
    | nil => simp [joinDots]
    | cons q ps =>
      rw [List.flatMap_cons, ih (List.cons_ne_nil q ps), joinDots]
      simp

theorem PartText.head {p : Bytes} (hp : PartText p) :
    ∃ c, p.head? = some c ∧ (c = doubleQuote ∨ identChar c = true) := by
  rcases hp with ⟨c, cs, rfl, hc, -⟩ | ⟨x, rfl, -⟩
  · exact ⟨c, rfl, Or.inr (identStart_char c hc)⟩
  · exact ⟨doubleQuote, rfl, Or.inl rfl⟩

theorem joinDots_head {ps : List Bytes} (hne : ps ≠ []) (hps : ∀ p ∈ ps, PartText p) (s : Bytes) :
    ∃ c, (joinDots ps).head? = some c ∧ (joinDots ps ++ s).head? = some c ∧
      (c = doubleQuote ∨ identChar c = true) := by
  obtain ⟨p, ps, rfl⟩ := List.exists_cons_of_ne_nil hne
  obtain ⟨c, hc, hkind⟩ := (hps p List.mem_cons_self).head
  cases p with
  | nil => cases hc
  | cons d p =>
    cases hc
    cases ps with
    | nil => exact ⟨_, rfl, rfl, hkind⟩
    | cons q ps => exact ⟨_, rfl, rfl, hkind⟩

/-- What was read when something is returned. -/
theorem pgInsertTarget_some {sql : Bytes} (h : pgInsertTarget sql ≠ []) :
    ∃ (l : Lead) (ps : List Bytes) (rest : Bytes), (∀ p ∈ ps, PartText p) ∧ ps ≠ [] ∧
      ps.length ≤ 3 ∧ ps.head? ≠ some [doubleQuote, doubleQuote] ∧ l.Separate (joinDots ps) ∧
      (∀ c ∈ rest.head?, isSpace c = true ∨ c = 40) ∧
      ((pgInsertTarget sql = joinDots ps ∧ sql = l.text (joinDots ps ++ rest)) ∨
        (ps.length = 3 ∧ sql = l.text (joinDots ps ++ dot :: rest))) := by
  cases hinsert : keyword (ascii "INSERT") (skipWs sql) with
  | none =>
    rw [pgInsertTarget, hinsert] at h
    exact absurd rfl h
  | some s =>
  cases hinto : keyword (ascii "INTO") (skipWs s) with
  | none =>
    rw [pgInsertTarget, hinsert] at h
    dsimp only at h
    rw [hinto] at h
    exact absurd rfl h
  | some t =>
  cases hname : readName 3 [] (skipWs t) with
  | none =>
    rw [pgInsertTarget, hinsert] at h
    dsimp only at h
    rw [hinto] at h
    dsimp only at h
    rw [hname] at h
    exact absurd rfl h
  | some r =>
  obtain ⟨name, rest⟩ := r
  have htarget : pgInsertTarget sql =
      if rest.head?.all fun c => isSpace c || c = 40 then name else [] := by
    rw [pgInsertTarget, hinsert]
    dsimp only
    rw [hinto]
    dsimp only
    rw [hname]
  rw [htarget] at h ⊢
  split at h
  swap
  · exact absurd rfl h
  rename_i hall
  rw [if_pos hall]
  obtain ⟨before, hsql, hbefore⟩ := skipWs_split sql
  obtain ⟨insert, hs, hinsertOk, hsnext⟩ := keyword_some hinsert
  obtain ⟨between, hbetween, hbetweenOk⟩ := skipWs_split s
  obtain ⟨into, ht, hintoOk, htnext⟩ := keyword_some hinto
  obtain ⟨behind, hbehind, hbehindOk⟩ := skipWs_split t
  obtain ⟨ps, hps, hlen, hfirst, hread⟩ := readName_some hname
  have hne : ps ≠ [] := by
    rcases hread with ⟨hne, -⟩ | ⟨hlen, -⟩
    · exact hne
    · rintro rfl
      cases hlen
  have hbetweenNe : between ≠ [] := by
    rintro rfl
    obtain ⟨c, cs, rfl, hc, -⟩ := keyword_word hintoOk (by decide) (List.all_eq_true.mp into_start)
    rw [List.nil_append, ht] at hbetween
    rw [hbetween] at hsnext
    exact absurd (identStart_char c hc) (by rw [hsnext c rfl]; exact Bool.false_ne_true)
  have hnext : ∀ u, skipWs t = joinDots ps ++ u →
      behind ≠ [] ∨ (joinDots ps).head? = some doubleQuote := by
    intro u hu
    obtain ⟨c, hhead, happend, hkind⟩ := joinDots_head hne hps u
    by_cases hnil : behind = []
    · rw [hnil, List.nil_append, hu] at hbehind
      rw [hbehind, happend] at htnext
      rcases hkind with rfl | hchar
      · exact Or.inr hhead
      · rw [htnext c rfl] at hchar
        cases hchar
    · exact Or.inl hnil
  have hbracket : ∀ c ∈ rest.head?, isSpace c = true ∨ c = 40 := by
    intro c hc
    rw [Option.mem_def] at hc
    rw [hc] at hall
    simpa using hall
  refine ⟨⟨before, insert, between, into, behind, hbefore, hinsertOk, hbetweenOk, hbetweenNe,
    hintoOk, hbehindOk⟩, ps, rest, hps, hne, hlen, hfirst rfl, ?_, hbracket, ?_⟩
  · rcases hread with ⟨-, -, hu⟩ | ⟨-, -, hu⟩
    · exact hnext rest hu
    · rw [flatMap_dots hne, List.append_assoc] at hu
      exact hnext _ hu
  · rw [hs] at hsql
    rw [ht] at hbetween
    rcases hread with ⟨-, hjoin, hu⟩ | ⟨hthree, -, hu⟩
    · refine Or.inl ⟨hjoin, ?_⟩
      rw [hsql, hbetween, hbehind, hu]
      rfl
    · refine Or.inr ⟨hthree, ?_⟩
      rw [hsql, hbetween, hbehind, hu, flatMap_dots hne, List.append_assoc]
      rfl

theorem space_char (c : UInt8) (h : isSpace c = true ∨ c = 40) :
    isBoundary c = true ∧ c ≠ doubleQuote ∧ c ≠ dot := by
  rcases h with h | rfl
  · refine ⟨(space_boundary c h).1, (space_boundary c h).2, ?_⟩
    rintro rfl
    exact absurd h (by decide)
  · decide

theorem word_not_space {w : Bytes} (hw : WordText w) (s : Bytes) :
    ∀ c ∈ (w ++ s).head?, isSpace c = false := by
  obtain ⟨c, cs, rfl, hc, -⟩ := hw
  rintro _ ⟨⟩
  by_contra hspace
  rw [Bool.not_eq_false] at hspace
  have hchar := boundary_char c (space_boundary c hspace).1
  rw [identStart_char c hc] at hchar
  cases hchar

theorem PartText.long {p : Bytes} (hp : PartText p) (hne : p ≠ [doubleQuote, doubleQuote])
    (hq : p.head? = some doubleQuote) : 3 ≤ p.length := by
  rcases hp with ⟨c, cs, rfl, hc, -⟩ | ⟨x, rfl, hx⟩
  · exact absurd (Option.some.inj hq) (identStart_ne c hc)
  · match x, hx with
    | [], hx => cases hx
    | [c], hx =>
      have hc : c = doubleQuote := by
        by_contra hc
        rw [readQuoted, if_neg hc] at hx
        cases hx
      exact absurd (by rw [hc]) hne
    | _ :: _ :: _, _ => simp

/-- A name before white space is returned. -/
theorem pgInsertTarget_append {l : Lead} {ps : List Bytes} {c : UInt8} (hne : ps ≠ [])
    (hlen : ps.length ≤ 3) (hps : ∀ p ∈ ps, PartText p)
    (hfirst : ps.head? ≠ some [doubleQuote, doubleQuote]) (hsep : l.Separate (joinDots ps))
    (hc : isSpace c = true) (rest : Bytes) :
    pgInsertTarget (l.text (joinDots ps ++ c :: rest)) = joinDots ps := by
  have hnext : ∀ d ∈ (c :: rest).head?, isBoundary d = true ∧ d ≠ doubleQuote ∧ d ≠ dot := by
    rintro d ⟨⟩
    exact space_char c (Or.inl hc)
  have hread : ∀ p ∈ ps.head?, p.head? = some doubleQuote → 3 ≤ (([] : Bytes) ++ p).length :=
    fun p hp => (hps p (List.mem_of_mem_head? hp)).long fun hno => hfirst (hno ▸ hp)
  obtain ⟨d, hhead, happend, hkind⟩ := joinDots_head hne hps (c :: rest)
  have hname : ∀ e ∈ (joinDots ps ++ c :: rest).head?, isSpace e = false := by
    intro e he
    rw [happend] at he
    cases he
    by_contra hspace
    rw [Bool.not_eq_false] at hspace
    have hboundary := space_boundary d hspace
    rcases hkind with rfl | hchar
    · exact hboundary.2 rfl
    · rw [boundary_char d hboundary.1] at hchar
      cases hchar
  have hbetween : ∀ e ∈ (l.between ++ (l.into ++ (l.behind ++ (joinDots ps ++ c :: rest)))).head?,
      identChar e = false := fun e he =>
    boundary_char e (head_boundary l.betweenOk (Or.inl l.betweenNe) e he)
  have hsep' : l.behind ≠ [] ∨ (joinDots ps ++ c :: rest).head? = some doubleQuote :=
    hsep.imp_right fun h => by rw [happend, ← hhead, h]
  have hbehind : ∀ e ∈ (l.behind ++ (joinDots ps ++ c :: rest)).head?, identChar e = false :=
    fun e he => boundary_char e (head_boundary l.behindOk hsep' e he)
  rw [pgInsertTarget, Lead.text, skipWs_append l.beforeOk (word_not_space l.insert_word _),
    keyword_append l.insertOk hbetween]
  dsimp only
  rw [skipWs_append l.betweenOk (word_not_space l.into_word _), keyword_append l.intoOk hbehind]
  dsimp only
  rw [skipWs_append l.behindOk hname, readName_append hne hlen hps hread hnext]
  dsimp only
  rw [List.head?_cons, Option.all_some, hc, Bool.true_or, if_pos rfl, List.nil_append]

/-- The tokens of a statement, and the ones that name its table. -/
theorem tokens_insert {l : Lead} {ps : List Bytes} (hne : ps ≠ []) (hps : ∀ p ∈ ps, PartText p)
    (hsep : l.Separate (joinDots ps)) {rest : Bytes}
    (hrest : ∀ c ∈ rest.head?, isBoundary c = true ∧ c ≠ doubleQuote) :
    tokens (symbols (l.text (joinDots ps ++ rest))) =
        texts .word l.insert :: texts .word l.into ::
          (dotTokens ps ++ tokens (codeSymbols rest)) ∧
      target (l.text (joinDots ps ++ rest)) =
        dotted (dotTokens ps ++ tokens (codeSymbols rest)) := by
  obtain ⟨c, hhead, happend, -⟩ := joinDots_head hne hps rest
  have hsep' : l.behind ≠ [] ∨ (joinDots ps ++ rest).head? = some doubleQuote :=
    hsep.imp_right fun h => by rw [happend, ← hhead, h]
  refine ⟨by rw [tokens_lead l hsep', tokens_joinDots hrest hps], ?_⟩
  obtain ⟨p, ps, rfl⟩ := List.exists_cons_of_ne_nil hne
  obtain ⟨more, hmore⟩ := dotTokens_cons p ps
  have htokens := tokens_joinDots hrest hps
  rw [hmore, List.cons_append] at htokens ⊢
  exact target_lead l hsep' (isPart_partToken (hps p List.mem_cons_self)) htokens

theorem not_ended {sql : Bytes} (h : ValidTarget sql) {a b : List Sym} {x y : List (List Sym)}
    (htokens : tokens (symbols sql) = a :: b :: (x ++ y)) (htarget : target sql = x) :
    y.head? ≠ some dotToken := by
  have hended := h.ended
  rw [htokens, htarget, Nat.add_comm, List.drop_succ_cons, List.drop_succ_cons,
    List.drop_left] at hended
  exact hended

/-- The target is returned unless white space splits the name. -/
theorem target_iff {sql : Bytes} (h : ValidTarget sql) :
    (pgInsertTarget sql = [] ∨ tokens (symbols (pgInsertTarget sql)) = target sql) ↔
      ¬ SplitName sql := by
  have hself : ∀ ps : List Bytes, (∀ p ∈ ps, PartText p) →
      tokens (symbols (joinDots ps)) = dotTokens ps := by
    intro ps hps
    have htokens := tokens_joinDots (s := []) nofun hps
    rw [List.append_nil] at htokens
    exact htokens.trans (List.append_nil _)
  constructor
  · rintro hprop ⟨l, ps, c, rest, rfl, hsep, hne, hlen, hps, hfirst, hc, hdot⟩
    rw [pgInsertTarget_append hne hlen hps hfirst hsep hc rest, hself ps hps] at hprop
    have hnext : ∀ d ∈ (c :: rest).head?, isBoundary d = true ∧ d ≠ doubleQuote := by
      rintro d ⟨⟩
      exact space_boundary c hc
    obtain ⟨htokens, -⟩ := tokens_insert hne hps hsep hnext
    rcases hprop with hnil | htarget
    · obtain ⟨d, hd, -⟩ := joinDots_head hne hps []
      rw [hnil] at hd
      cases hd
    · refine not_ended h htokens htarget.symm ?_
      rw [← hdot]
      exact congrArg List.head? (@tokens_blanks [c] (by simpa using hc) rest)
  · intro hsplit
    by_cases hnil : pgInsertTarget sql = []
    · exact Or.inl hnil
    refine Or.inr ?_
    obtain ⟨l, ps, rest, hps, hne, hlen, hfirst, hsep, hrest, hread⟩ := pgInsertTarget_some hnil
    rcases hread with ⟨hname, hsql⟩ | ⟨hthree, hsql⟩
    · have hnext : ∀ c ∈ rest.head?, isBoundary c = true ∧ c ≠ doubleQuote := fun c hc =>
        ⟨(space_char c (hrest c hc)).1, (space_char c (hrest c hc)).2.1⟩
      obtain ⟨-, htarget⟩ := tokens_insert hne hps hsep hnext
      rw [hname, hself ps hps, hsql, htarget]
      refine (dotted_ended hne hps fun q more hmore => ?_).symm
      have hdot : (tokens (codeSymbols rest)).head? = some dotToken := by
        rw [hmore]
        rfl
      cases rest with
      | nil => cases hdot
      | cons c rest =>
        rcases hrest c rfl with hspace | rfl
        · refine absurd ⟨l, ps, c, rest, hsql, hsep, hne, hlen, hps, hfirst, hspace, ?_⟩ hsplit
          rw [← hdot]
          exact congrArg List.head? (@tokens_blanks [c] (by simpa using hspace) rest).symm
        · rw [tokens_other codeSymbols_bracket] at hdot
          exact absurd (Option.some.inj hdot) (by decide)
    · have hnext : ∀ c ∈ (dot :: rest).head?, isBoundary c = true ∧ c ≠ doubleQuote := by
        rintro c ⟨⟩
        exact ⟨by decide, by decide⟩
      obtain ⟨htokens, htarget⟩ := tokens_insert hne hps hsep hnext
      rw [← hsql, tokens_other codeSymbols_dot, ← dotToken] at htokens htarget
      have hended : ¬ ∀ q more, dotToken :: tokens (codeSymbols rest) = dotToken :: q :: more →
          isPart q = false := fun hmore =>
        not_ended h htokens (htarget.trans (dotted_ended hne hps hmore)) rfl
      push Not at hended
      obtain ⟨q, more, hmore, hq⟩ := hended
      -- The name would have four parts.
      have hparts := h.parts
      rw [htarget, hmore, dotted_more hne hps (by simpa using hq), List.count_append,
        List.count_cons_self] at hparts
      have hcount := count_dotTokens hne hps
      omega

end PgInsert

end Look
