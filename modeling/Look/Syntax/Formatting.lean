/-
The formatter formats what it has formatted to itself, and loses nothing.

A line that the loop has written is a line that it writes (`formatLines_again`), whatever the
formatter takes for a string or a comment: the scan of a line sees its content only, and the
content of the written line is the same.  The types and the lexemes of two lists of tokens say
that the trees are the same but for lines, since a token is what its lexeme reads as
(`scanTokens_genuine`).
-/
import Look.Lib.Find
import Look.Syntax.Format
import Look.Syntax.Munch
import Look.Syntax.Positions

namespace Look

namespace Syntax

namespace Format

/-! ## Lines -/

def unlines (ls : List Bytes) : Bytes := ls.flatMap (· ++ [lf])

theorem unlines_cons (l : Bytes) (ls : List Bytes) : unlines (l :: ls) = l ++ lf :: unlines ls := by
  rw [unlines, List.flatMap_cons, List.append_assoc]
  rfl

theorem unlines_concat (ls : List Bytes) (l : Bytes) :
    unlines (ls ++ [l]) = unlines ls ++ (l ++ [lf]) := by
  rw [unlines, unlines, List.flatMap_append, List.flatMap_singleton]

/-- A text that ends with a newline, as pieces with newlines between them. -/
theorem unlines_eq (l : Bytes) (ls : List Bytes) :
    unlines (l :: ls) = l ++ (ls ++ [[]]).flatMap (lf :: ·) := by
  induction ls generalizing l with
  | nil => rw [unlines_cons]; rfl
  | cons l' ls ih => rw [unlines_cons, ih, List.cons_append, List.flatMap_cons, List.cons_append]

theorem getLines_unlines {ls : List Bytes} (h : ∀ l ∈ ls, lf ∉ l) : getLines (unlines ls) = ls := by
  cases ls with
  | nil => rfl
  | cons l ls =>
    have hpieces : (unlines (l :: ls)).splitOn lf = l :: (ls ++ [[]]) := by
      rw [unlines_eq]
      refine splitOn_pieces (h l List.mem_cons_self) fun y hy => ?_
      obtain hy | hy := List.mem_append.mp hy
      · exact h y (List.mem_cons_of_mem _ hy)
      · rw [List.mem_singleton.mp hy]
        exact List.not_mem_nil
    rw [getLines, hpieces, ← List.cons_append, List.getLast?_concat, if_pos rfl, List.dropLast_concat]

/-- The lines of a source hold no newline, and are the source but for the last one. -/
theorem getLines_spec (src : Bytes) :
    (∀ l ∈ getLines src, lf ∉ l) ∧
      (src = unlines (getLines src) ∨ src ++ [lf] = unlines (getLines src)) := by
  obtain ⟨x, l, hpieces, hx, hl, hsrc⟩ := exists_splitOn lf src
  have hall : ∀ y ∈ x :: l, lf ∉ y := by
    intro y hy
    obtain rfl | hy := List.mem_cons.mp hy
    · exact hx
    · exact hl y hy
  have hunlines : src ++ [lf] = unlines (x :: l) := by
    rw [unlines_eq, hsrc, List.flatMap_append, List.append_assoc]
    rfl
  rw [getLines, hpieces]
  split
  · rename_i hlast
    obtain ⟨front, hfront⟩ := List.getLast?_eq_some_iff.mp hlast
    rw [hfront, List.dropLast_concat]
    refine ⟨fun y hy => hall y (hfront ▸ List.mem_append_left _ hy), .inl ?_⟩
    rw [hfront, unlines_concat, List.nil_append] at hunlines
    exact List.append_cancel_right hunlines
  · exact ⟨hall, .inr hunlines⟩

/-! ## The end of the file -/

theorem popNewlines_single (c : UInt8) (s : Bytes) (h : ¬(c = lf ∧ s.head? = some lf)) :
    popNewlines (c :: s) = c :: s := by
  rw [popNewlines, if_neg h]

/-- The lines that are left when the empty ones at the end are taken away. -/
theorem finishFile_unlines (ls : List Bytes) (h : ∀ l ∈ ls, lf ∉ l) :
    ∃ ls', (ls' <+: ls ∨ ls' = [[]]) ∧ finishFile (unlines ls) = unlines ls' ∧
      finishFile (unlines ls') = unlines ls' := by
  induction ls using List.reverseRecOn with
  | nil => exact ⟨[[]], .inr rfl, rfl, rfl⟩
  | append_singleton ls l ih =>
    have hls : ∀ l ∈ ls, lf ∉ l := fun l hl => h l (List.mem_append_left _ hl)
    have hkeep (hnot : ¬((l.reverse ++ (unlines ls).reverse).head? = some lf)) :
        finishFile (unlines (ls ++ [l])) = unlines (ls ++ [l]) := by
      have hrev : (unlines (ls ++ [l])).reverse = lf :: (l.reverse ++ (unlines ls).reverse) := by
        rw [unlines_concat]
        simp
      rw [finishFile, hrev, popNewlines_single _ _ fun hand => hnot hand.2, ← hrev,
        List.reverse_reverse, unlines_concat, ← List.append_assoc, List.getLast?_concat, if_pos rfl]
    cases l with
    | cons c l =>
      have hlast : ¬(((c :: l).reverse ++ (unlines ls).reverse).head? = some lf) := by
        intro hhead
        have hmem : lf ∈ (c :: l).reverse := by
          have hne : (c :: l).reverse ≠ [] := by simp
          rw [List.head?_append_of_ne_nil _ hne] at hhead
          exact List.mem_of_head? hhead
        rw [List.mem_reverse] at hmem
        exact h _ (List.mem_append_right _ List.mem_cons_self) hmem
      exact ⟨_, .inl List.prefix_rfl, hkeep hlast, hkeep hlast⟩
    | nil =>
      obtain rfl | ⟨ls₀, l₀, hconcat⟩ := List.eq_nil_or_concat ls
      · exact ⟨[[]], .inr rfl, rfl, rfl⟩
      · have hlast : (unlines ls).reverse.head? = some lf := by
          rw [hconcat, List.concat_eq_append, unlines_concat, List.head?_reverse,
            ← List.append_assoc, List.getLast?_concat]
        have hpop : finishFile (unlines (ls ++ [[]])) = finishFile (unlines ls) := by
          have hrev : (unlines (ls ++ [[]])).reverse = lf :: (unlines ls).reverse := by
            rw [unlines_concat]
            simp
          have hpopped :
              popNewlines (lf :: (unlines ls).reverse) = popNewlines (unlines ls).reverse := by
            rw [popNewlines, if_pos ⟨rfl, hlast⟩]
          rw [finishFile, hrev, hpopped, finishFile]
        obtain ⟨ls', hprefix, hfinish, hagain⟩ := ih hls
        refine ⟨ls', hprefix.imp_left fun hpre => hpre.trans (List.prefix_append _ _), ?_, hagain⟩
        rw [hpop, hfinish]

/-! ## Contents -/

theorem dropWhile_of_head {p : UInt8 → Bool} {s : Bytes} (h : ∀ c ∈ s.head?, p c = false) :
    s.dropWhile p = s := by
  cases s with
  | nil => rfl
  | cons c s => exact List.dropWhile_cons_of_neg (Bool.eq_false_iff.mp (h c rfl))

theorem lstrip_head (s : Bytes) : ∀ c ∈ (lstrip s).head?, isIndent c = false := by
  intro c hc
  have hnot := List.head?_dropWhile_not isIndent s
  rw [lstrip] at hc
  rw [hc] at hnot
  exact hnot

/-- What is taken off at the end. -/
theorem rstrip_spec (s : Bytes) :
    ∃ blanks, s = rstrip s ++ blanks ∧ ∀ c ∈ blanks, isIndent c || c = 0x0D := by
  refine ⟨(s.reverse.takeWhile fun c => isIndent c || c = 0x0D).reverse, ?_, ?_⟩
  · rw [rstrip, ← List.reverse_append, List.takeWhile_append_dropWhile, List.reverse_reverse]
  · intro c hc
    rw [List.mem_reverse] at hc
    exact List.mem_takeWhile_imp (p := fun c => isIndent c || c = 0x0D) hc

theorem rstrip_idem (s : Bytes) : rstrip (rstrip s) = rstrip s := by
  have hrev : (rstrip s).reverse = s.reverse.dropWhile fun c => isIndent c || c = 0x0D := by
    rw [rstrip, List.reverse_reverse]
  have hhead : ∀ c ∈ (rstrip s).reverse.head?, (isIndent c || c = 0x0D) = false := by
    intro c hc
    have hnot := List.head?_dropWhile_not (fun c => isIndent c || c = 0x0D) s.reverse
    rw [hrev] at hc
    rw [hc] at hnot
    exact hnot
  rw [rstrip, dropWhile_of_head hhead, List.reverse_reverse]

/-- The content of a line. -/
def content (raw : Bytes) : Bytes := rstrip (lstrip raw)

theorem content_head (raw : Bytes) : ∀ c ∈ (content raw).head?, isIndent c = false := by
  intro c hc
  obtain ⟨blanks, hsplit, _⟩ := rstrip_spec (lstrip raw)
  have hhead := lstrip_head raw c
  rw [hsplit] at hhead
  refine hhead ?_
  rw [content] at hc
  rw [List.head?_append, hc]
  rfl

/-- With another indentation the content is the same. -/
theorem content_indented (n : Nat) (raw : Bytes) :
    content (List.replicate n 0x20 ++ content raw) = content raw := by
  have hall : ∀ c ∈ List.replicate n (0x20 : UInt8), isIndent c = true := by
    intro c hc
    rw [List.eq_of_mem_replicate hc]
    rfl
  rw [content, lstrip, List.dropWhile_append_of_pos hall, dropWhile_of_head (content_head raw),
    content, rstrip_idem]

/-! ## The loop again -/

theorem line_code {st : State} {raw : Bytes} (hstr : st.inStr = none) (hne : content raw ≠ []) :
    line st raw = (some (List.replicate
      ((max 0 (st.depth - (scanLine (content raw) none).leadingClosers)).toNat * 4) 0x20 ++ content raw),
      ⟨max 0 (st.depth + (scanLine (content raw) none).delta),
        (scanLine (content raw) none).inStr, 0⟩) := by
  unfold line
  rw [hstr]
  exact if_neg hne

theorem line_blank {st : State} {raw : Bytes} (hstr : st.inStr = none) (hempty : content raw = []) :
    line st raw = (if st.blankRun + 1 ≤ 1 then some [] else none,
      { st with blankRun := st.blankRun + 1 }) := by
  unfold line
  rw [hstr]
  exact if_pos hempty

theorem line_string {st : State} {quote : UInt8} {raw : Bytes} (hstr : st.inStr = some quote) :
    line st raw = (some raw, { st with inStr := (scanLine raw (some quote)).inStr, blankRun := 0 }) := by
  unfold line
  rw [hstr]

theorem formatLines_cons (st : State) (raw : Bytes) (rest : List Bytes) :
    formatLines st (raw :: rest) =
      (line st raw).1.toList ++ formatLines (line st raw).2 rest := rfl

/-- Two states that differ in how many blank lines have been dropped. -/
structure Similar (st st' : State) : Prop where
  depth : st'.depth = st.depth
  inStr : st'.inStr = st.inStr
  blankRun : st'.blankRun = 0 ↔ st.blankRun = 0

/-- Written lines are written again. -/
theorem formatLines_again {st st' : State} (h : Similar st st') (ls : List Bytes) :
    formatLines st' (formatLines st ls) = formatLines st ls := by
  induction ls generalizing st st' with
  | nil => rfl
  | cons raw ls ih =>
    rw [formatLines_cons]
    cases hstr : st.inStr with
    | some quote =>
      rw [line_string hstr]
      have hstr' : st'.inStr = some quote := h.inStr.trans hstr
      change formatLines st' (raw :: _) = raw :: _
      rw [formatLines_cons, line_string hstr']
      exact congrArg (raw :: ·) (ih ⟨h.depth, rfl, Iff.rfl⟩)
    | none =>
      have hstr' : st'.inStr = none := h.inStr.trans hstr
      by_cases hempty : content raw = []
      · rw [line_blank hstr hempty]
        by_cases hrun : st.blankRun = 0
        · have hrun' : st'.blankRun = 0 := h.blankRun.mpr hrun
          have hcontent : content ([] : Bytes) = [] := rfl
          rw [if_pos (by omega)]
          change formatLines st' ([] :: _) = [] :: _
          rw [formatLines_cons, line_blank hstr' hcontent, if_pos (by omega)]
          refine congrArg ([] :: ·) (ih ⟨h.depth, h.inStr, ?_⟩)
          dsimp only
          omega
        · have hrun' : st'.blankRun ≠ 0 := fun h' => hrun (h.blankRun.mp h')
          rw [if_neg (by omega)]
          refine ih ⟨h.depth, h.inStr, ?_⟩
          dsimp only
          omega
      · rw [line_code hstr hempty]
        have hagain := content_indented ((max 0 (st.depth -
          (scanLine (content raw) none).leadingClosers)).toNat * 4) raw
        change formatLines st' ((List.replicate _ 0x20 ++ content raw) :: _) = _ :: _
        rw [formatLines_cons, line_code hstr' (by rwa [hagain]), hagain, h.depth]
        exact congrArg (_ :: ·) (ih ⟨rfl, rfl, Iff.rfl⟩)

/-- The state behind some lines. -/
def stateAfter (st : State) : List Bytes → State
  | [] => st
  | raw :: rest => stateAfter (line st raw).2 rest

theorem formatLines_append (st : State) (x y : List Bytes) :
    formatLines st (x ++ y) = formatLines st x ++ formatLines (stateAfter st x) y := by
  induction x generalizing st with
  | nil => rfl
  | cons raw x ih =>
    rw [List.cons_append, formatLines_cons, formatLines_cons, stateAfter, ih]
    exact (List.append_assoc ..).symm

theorem length_formatLines (st : State) (ls : List Bytes) :
    (formatLines st ls).length ≤ ls.length := by
  induction ls generalizing st with
  | nil => exact Nat.le_refl _
  | cons raw ls ih =>
    rw [formatLines_cons, List.length_append, List.length_cons, Nat.add_comm]
    exact Nat.add_le_add (ih _) (by cases (line st raw).1 <;> simp)

/-- The first lines of a text that is formatted to itself are. -/
theorem formatLines_initial {st : State} {x ls : List Bytes} (hpre : x <+: ls)
    (h : formatLines st ls = ls) : formatLines st x = x := by
  obtain ⟨y, rfl⟩ := hpre
  rw [formatLines_append] at h
  have hlength := congrArg List.length h
  rw [List.length_append, List.length_append] at hlength
  have hx := length_formatLines st x
  have hy := length_formatLines (stateAfter st x) y
  exact (List.append_inj h (by omega)).1

/-! ## The whole file -/

theorem lf_notMem_rstrip {s : Bytes} (h : lf ∉ s) : lf ∉ rstrip s := by
  obtain ⟨blanks, hsplit, _⟩ := rstrip_spec s
  rw [hsplit, List.mem_append, not_or] at h
  exact h.1

theorem lf_notMem_content {raw : Bytes} (h : lf ∉ raw) : lf ∉ content raw :=
  lf_notMem_rstrip fun hmem => h (List.dropWhile_sublist _ |>.mem hmem)

theorem formatLines_noNewline (st : State) {ls : List Bytes} (h : ∀ l ∈ ls, lf ∉ l) :
    ∀ l ∈ formatLines st ls, lf ∉ l := by
  induction ls generalizing st with
  | nil => exact fun l hl => nomatch hl
  | cons raw ls ih =>
    have hraw := h raw List.mem_cons_self
    rw [formatLines_cons]
    intro l hl
    obtain hl | hl := List.mem_append.mp hl
    · cases hstr : st.inStr with
      | some quote =>
        rw [line_string hstr] at hl
        rw [List.mem_singleton.mp hl]
        exact hraw
      | none =>
        by_cases hempty : content raw = []
        · rw [line_blank hstr hempty] at hl
          dsimp only at hl
          split at hl
          · rw [List.mem_singleton.mp hl]
            exact List.not_mem_nil
          · cases hl
        · rw [line_code hstr hempty] at hl
          rw [List.mem_singleton.mp hl, List.mem_append, not_or]
          refine ⟨fun hmem => ?_, lf_notMem_content hraw⟩
          have heq := List.eq_of_mem_replicate hmem
          revert heq
          decide
    · exact ih _ (fun l hl => h l (List.mem_cons_of_mem _ hl)) l hl

/-- The text that the loop makes is made of itself. -/
theorem layout_idem (src : Bytes) : layout (layout src) = layout src := by
  have hlines := formatLines_noNewline .start (getLines_spec src).1
  obtain ⟨ls, hls, hfinish, hagain⟩ := finishFile_unlines _ hlines
  have hlayout : layout src = unlines ls := hfinish
  have hfixed : formatLines .start ls = ls := by
    obtain hpre | rfl := hls
    · exact formatLines_initial hpre (formatLines_again ⟨rfl, rfl, Iff.rfl⟩ _)
    · rfl
  have hnone : ∀ l ∈ ls, lf ∉ l := by
    obtain hpre | rfl := hls
    · exact fun l hl => hlines l (hpre.subset hl)
    · exact fun l hl => by rw [List.mem_singleton.mp hl]; exact List.not_mem_nil
  rw [hlayout, layout, getLines_unlines hnone, hfixed]
  exact hagain

/-! ## Nothing is lost -/

def isSpace (c : UInt8) : Bool := c = 0x20 || c = 0x09 || c = 0x0D || c = lf

/-- The text without spaces, tabs, carriage returns and newlines. -/
def erase (s : Bytes) : Bytes := s.filter fun c => !isSpace c

theorem erase_append (s t : Bytes) : erase (s ++ t) = erase s ++ erase t :=
  List.filter_append ..

theorem erase_eq_nil {s : Bytes} (h : ∀ c ∈ s, isSpace c) : erase s = [] :=
  List.filter_eq_nil_iff.mpr fun c hc => by simp [h c hc]

theorem isSpace_of_isIndent {c : UInt8} (h : isIndent c) : isSpace c := by
  simp only [isIndent, Bool.or_eq_true, decide_eq_true_eq] at h
  rcases h with rfl | rfl <;> rfl

theorem erase_rstrip (s : Bytes) : erase (rstrip s) = erase s := by
  obtain ⟨blanks, hsplit, hblanks⟩ := rstrip_spec s
  have hspaces : erase blanks = [] := by
    refine erase_eq_nil fun c hc => ?_
    obtain hc | hc := Bool.or_eq_true_iff.mp (hblanks c hc)
    · exact isSpace_of_isIndent hc
    · rw [of_decide_eq_true hc]
      rfl
  conv_rhs => rw [hsplit]
  rw [erase_append, hspaces, List.append_nil]

theorem erase_lstrip (s : Bytes) : erase (lstrip s) = erase s := by
  have hspaces : erase (s.takeWhile isIndent) = [] :=
    erase_eq_nil fun c hc => isSpace_of_isIndent (List.mem_takeWhile_imp hc)
  have hsplit := List.takeWhile_append_dropWhile (p := isIndent) (l := s)
  conv_rhs => rw [← hsplit]
  rw [erase_append, hspaces, List.nil_append, lstrip]

theorem erase_content (raw : Bytes) : erase (content raw) = erase raw := by
  rw [content, erase_rstrip, erase_lstrip]

theorem erase_unlines (ls : List Bytes) : erase (unlines ls) = ls.flatMap erase := by
  induction ls with
  | nil => rfl
  | cons l ls ih =>
    rw [unlines_cons, erase_append, List.flatMap_cons, ← ih]
    rfl

theorem erase_line (st : State) (raw : Bytes) : (line st raw).1.toList.flatMap erase = erase raw := by
  cases hstr : st.inStr with
  | some quote => rw [line_string hstr]; exact List.append_nil _
  | none =>
    by_cases hempty : content raw = []
    · have hnil := erase_content raw
      rw [hempty] at hnil
      rw [line_blank hstr hempty, ← hnil]
      dsimp only
      split <;> rfl
    · have hspaces (n : Nat) : erase (List.replicate n 0x20) = [] :=
        erase_eq_nil fun c hc => by rw [List.eq_of_mem_replicate hc]; rfl
      rw [line_code hstr hempty, Option.toList_some, List.flatMap_singleton, erase_append, hspaces,
        List.nil_append, erase_content]

theorem erase_formatLines (st : State) (ls : List Bytes) :
    (formatLines st ls).flatMap erase = ls.flatMap erase := by
  induction ls generalizing st with
  | nil => rfl
  | cons raw ls ih =>
    rw [formatLines_cons, List.flatMap_append, erase_line, ih, List.flatMap_cons]

theorem erase_popNewlines (s : Bytes) : erase (popNewlines s) = erase s := by
  induction s with
  | nil => rfl
  | cons c s ih =>
    rw [popNewlines]
    split
    · rename_i hlf
      rw [ih, hlf.1]
      rfl
    · rfl

theorem erase_reverse (s : Bytes) : erase s.reverse = (erase s).reverse := List.filter_reverse ..

theorem erase_finishFile (out : Bytes) : erase (finishFile out) = erase out := by
  have hpop : erase (popNewlines out.reverse).reverse = erase out := by
    rw [erase_reverse, erase_popNewlines, erase_reverse, List.reverse_reverse]
  unfold finishFile
  dsimp only
  split
  · exact hpop
  · rw [erase_append, hpop]
    exact List.append_nil _

theorem erase_layout (src : Bytes) : erase (layout src) = erase src := by
  have hlf : erase [lf] = [] := rfl
  rw [layout, erase_finishFile]
  change erase (unlines _) = _
  rw [erase_unlines, erase_formatLines, ← erase_unlines]
  obtain hsrc | hsrc := (getLines_spec src).2
  · rw [← hsrc]
  · rw [← hsrc, erase_append, hlf, List.append_nil]

end Format

/-! ## Tokens -/

/-- What a token is beside its type is what its lexeme reads as. -/
def Token.Genuine (t : Token) : Prop :=
  t.lexeme = [] ∧ t.literal = none ∧ t.raw = false ∨
    ∃ c u lines, t.lexeme = c :: u ∧ munch c u = .ok ⟨.token t.type t.literal t.raw, u, lines, []⟩

theorem Token.Genuine.shadow_eq {t t' : Token} (h : t.Genuine) (h' : t'.Genuine)
    (htype : t.type = t'.type) (hlexeme : t.lexeme = t'.lexeme) : shadow t = shadow t' := by
  obtain ⟨type, lexeme, literal, line, raw⟩ := t
  obtain ⟨type', lexeme', literal', line', raw'⟩ := t'
  obtain rfl : type = type' := htype
  obtain rfl : lexeme = lexeme' := hlexeme
  have hsame : literal = literal' ∧ raw = raw' := by
    obtain ⟨rfl, rfl, rfl⟩ | ⟨c, u, lines, rfl, hmunch⟩ := h
    · obtain ⟨-, rfl, rfl⟩ | ⟨c, u, lines, hnil, -⟩ := h'
      · exact ⟨rfl, rfl⟩
      · cases hnil
    · obtain ⟨hnil, -, -⟩ | ⟨c', u', lines', heq, hmunch'⟩ := h'
      · cases hnil
      · cases heq
        rw [hmunch] at hmunch'
        cases hmunch'
        exact ⟨rfl, rfl⟩
  obtain ⟨rfl, rfl⟩ := hsame
  rfl

theorem Lexer.push_genuine {σ : Lexer} {type : TokenType} {lexeme : Bytes} {literal : Option Bytes}
    {raw : Bool} (hσ : ∀ t ∈ σ.tokens, t.Genuine)
    (h : (⟨type, lexeme, literal, σ.line, raw⟩ : Token).Genuine) :
    ∀ t ∈ (σ.push type lexeme literal raw).tokens, t.Genuine :=
  List.forall_mem_append.mpr ⟨hσ, List.forall_mem_singleton.mpr h⟩

theorem Lexer.endLine_genuine {σ : Lexer} (hσ : ∀ t ∈ σ.tokens, t.Genuine) (s : Bytes) :
    ∀ t ∈ (σ.endLine s).tokens, t.Genuine := by
  unfold Lexer.endLine
  split
  · exact Lexer.push_genuine hσ (.inr ⟨0x3B, [], 0, rfl, rfl⟩)
  · exact hσ

theorem scanToken_genuine {σ σ' : Lexer} {c : UInt8} {s rest : Bytes}
    (h : scanToken σ c s = .ok (σ', rest)) (hσ : ∀ t ∈ σ.tokens, t.Genuine) :
    ∀ t ∈ σ'.tokens, t.Genuine := by
  unfold scanToken at h
  cases hmunch : munch c s with
  | error e =>
    rw [hmunch] at h
    cases h
  | ok scan =>
    rw [hmunch] at h
    obtain ⟨piece, text, lines, behind⟩ := scan
    cases piece with
    | token type literal raw =>
      cases h
      exact Lexer.push_genuine hσ (.inr ⟨c, text, lines, rfl, by
        simpa using @munch_change _ _ [] _ hmunch (.nil _)⟩)
    | newline =>
      cases h
      exact Lexer.endLine_genuine (σ := { σ with line := σ.line + lines }) hσ _
    | blank =>
      cases h
      exact hσ
    | comment =>
      cases h
      exact hσ

theorem scanLoop_genuine {n : Nat} {σ σ' : Lexer} {s : Bytes} (h : scanLoop n σ s = .ok σ')
    (hσ : ∀ t ∈ σ.tokens, t.Genuine) : ∀ t ∈ σ'.tokens, t.Genuine := by
  induction n generalizing σ s with
  | zero =>
    cases h
    exact hσ
  | succ n ih =>
    cases s with
    | nil =>
      cases h
      exact hσ
    | cons c s =>
      rw [scanLoop] at h
      cases hscan : scanToken σ c s with
      | error e =>
        rw [hscan] at h
        cases h
      | ok r =>
        rw [hscan] at h
        exact ih h (scanToken_genuine hscan hσ)

theorem scanTokens_genuine {source : Bytes} {tokens : List Token}
    (h : scanTokens source = .ok tokens) : ∀ t ∈ tokens, t.Genuine := by
  unfold scanTokens at h
  dsimp only at h
  split at h
  · cases h
  · rename_i σ hloop
    cases h
    have hloop := scanLoop_genuine hloop fun _ ht => absurd ht List.not_mem_nil
    exact Lexer.push_genuine (Lexer.endLine_genuine hloop _) (.inl ⟨rfl, rfl, rfl⟩)

theorem shadow_eq_of_keys {ts ts' : List Token} (h : ∀ t ∈ ts, t.Genuine)
    (h' : ∀ t ∈ ts', t.Genuine)
    (hkeys : ts.map (fun t => (t.type, t.lexeme)) = ts'.map fun t => (t.type, t.lexeme)) :
    shadow ts = shadow ts' := by
  induction ts generalizing ts' with
  | nil =>
    cases ts' with
    | nil => rfl
    | cons t' ts' => cases hkeys
  | cons t ts ih =>
    cases ts' with
    | nil => cases hkeys
    | cons t' ts' =>
      rw [List.forall_mem_cons] at h h'
      obtain ⟨hkey, hkeys⟩ := List.cons.inj hkeys
      obtain ⟨htype, hlexeme⟩ := Prod.mk.inj hkey
      rw [shadow_cons, shadow_cons, h.1.shadow_eq h'.1 htype hlexeme, ih h.2 h'.2 hkeys]

namespace Format

theorem sameTokens_right {a b : Bytes} (h : sameTokens a b) : sameTokens b b := by
  unfold sameTokens at h ⊢
  split at h
  · rename_i tokens tokens' ha hb
    rw [hb]
    exact decide_eq_true rfl
  · cases h

/-- Sources with the same types and lexemes have the same tree but for lines. -/
theorem parse_of_sameTokens {a b : Bytes} (h : sameTokens a b) (strtod : Bytes → Double) :
    ∃ tokens tokens', scanTokens a = .ok tokens ∧ scanTokens b = .ok tokens' ∧
      shadow (parse strtod tokens') = shadow (parse strtod tokens) := by
  unfold sameTokens at h
  split at h
  · rename_i tokens tokens' ha hb
    refine ⟨tokens, tokens', ha, hb, ?_⟩
    rw [← parse_shadow, ← parse_shadow,
      shadow_eq_of_keys (scanTokens_genuine ha) (scanTokens_genuine hb) (of_decide_eq_true h)]
  · cases h

/-- Formatting again changes nothing, blanks are all that is changed, and when the formatter says
`ok` the tree is the same but for lines. -/
theorem lookFormatSource_spec (strtod : Bytes → Double) (src : Bytes) :
    lookFormatSource (lookFormatSource src).1 = lookFormatSource src ∧
      erase (lookFormatSource src).1 = erase src ∧
      ((lookFormatSource src).2 → ∃ tokens tokens', scanTokens src = .ok tokens ∧
        scanTokens (lookFormatSource src).1 = .ok tokens' ∧
        shadow (parse strtod tokens') = shadow (parse strtod tokens) ∧
        parse strtod tokens ≠ .timeout) := by
  by_cases hsame : sameTokens src (layout src)
  · have hresult : lookFormatSource src = (layout src, true) := if_pos hsame
    obtain ⟨tokens, tokens', hsrc, hout, htree⟩ := parse_of_sameTokens hsame strtod
    rw [hresult]
    refine ⟨?_, erase_layout src, fun _ =>
      ⟨tokens, tokens', hsrc, hout, htree, parse_ne_timeout strtod tokens⟩⟩
    rw [lookFormatSource, layout_idem]
    exact if_pos (sameTokens_right hsame)
  · have hresult : lookFormatSource src = (src, false) := if_neg hsame
    rw [hresult]
    exact ⟨hresult, rfl, nofun⟩

end Format

end Syntax

end Look
