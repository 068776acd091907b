/-
Expressions as they are written.

A formula is an expression over variables and integers with the operators of the grammar.
`Formula.body` are its tokens, with parentheses around an operand whose level is lower than the
one the grammar has there; `print` writes them with a space between each two, and the lexer reads
the tokens back (`scanTokens_print`).
-/
import Mathlib.Algebra.Group.Int.Defs
import Mathlib.Algebra.Group.Nat.Defs
import Look.Decimal
import Look.Syntax.Munch
import Look.Syntax.Parser

namespace Look

namespace Syntax

/-! ## Formulas -/

/-- A name behind `$`. -/
structure Variable where
  name : Bytes
  isName : ∀ c ∈ name, isName c = true

def Variable.lexeme (v : Variable) : Bytes := 0x24 :: v.name

/-- The number of an integer literal. -/
structure Literal where
  value : Nat
  small : value < 2 ^ 63

def Literal.lexeme (n : Literal) : Bytes := intText (n.value : Int)

/-- An operator before its operand. -/
inductive Sign where
  | minus
  | bang
  | tilde

def Sign.op : Sign → UnaryOp
  | .minus => .neg
  | .bang => .not
  | .tilde => .bitNot

inductive Formula where
  | var (v : Variable)
  | int (n : Literal)
  | unary (sign : Sign) (right : Formula)
  | binary (left : Formula) (op : BinaryOp) (right : Formula)
  | ternary (condition thenBranch elseBranch : Formula)
  | assign (v : Variable) (value : Formula)

namespace Formula

/-- The tree of the formula. -/
def expr : Formula → Expr
  | var v => .var (chars v.lexeme)
  | int n => .numberLit (Int64.ofInt n.value)
  | unary sign right => .unary sign.op right.expr true
  | binary left op right => .binary left.expr op right.expr
  | ternary condition thenBranch elseBranch =>
    .ternary condition.expr thenBranch.expr elseBranch.expr
  | assign v value => .assign (chars v.lexeme) .set none none value.expr

end Formula

/-! ## Tokens -/

/-- A token without a literal, on the first line. -/
def word (type : TokenType) (lexeme : Bytes) : Token := ⟨type, lexeme, none, 1, false⟩

def Variable.token (v : Variable) : Token := word .ident v.lexeme

def Literal.token (n : Literal) : Token := ⟨.number, n.lexeme, some n.lexeme, 1, false⟩

def Sign.token : Sign → Token
  | .minus => word .minus (ascii "-")
  | .bang => word .bang (ascii "!")
  | .tilde => word .tilde (ascii "~")

def opToken : BinaryOp → Token
  | .add => word .plus (ascii "+")
  | .sub => word .minus (ascii "-")
  | .mul => word .star (ascii "*")
  | .div => word .slash (ascii "/")
  | .mod => word .percent (ascii "%")
  | .pow => word .starStar (ascii "**")
  | .concat => word .dot (ascii ".")
  | .eq => word .equalEqual (ascii "==")
  | .neq => word .bangEqual (ascii "!=")
  | .lt => word .less (ascii "<")
  | .gt => word .greater (ascii ">")
  | .lte => word .lessEqual (ascii "<=")
  | .gte => word .greaterEqual (ascii ">=")
  | .cmp3 => word .spaceship (ascii "<=>")
  | .bitAnd => word .amp (ascii "&")
  | .bitOr => word .pipe (ascii "|")
  | .bitXor => word .caret (ascii "^")
  | .shl => word .lessLess (ascii "<<")
  | .shr => word .greaterGreater (ascii ">>")
  | .and => word .ampAmp (ascii "&&")
  | .or => word .pipePipe (ascii "||")
  | .coalesce => word .questionQuestion (ascii "??")

/-! ## Levels -/

/-- The level of the grammar that an operator belongs to; the lowest one is that of assignments. -/
def precedence : BinaryOp → Nat
  | .coalesce => 2
  | .or => 3
  | .and => 4
  | .bitOr => 5
  | .bitXor => 6
  | .bitAnd => 7
  | .eq | .neq => 8
  | .cmp3 | .gt | .gte | .lt | .lte => 9
  | .shl | .shr => 10
  | .concat => 11
  | .add | .sub => 12
  | .mul | .div | .mod => 13
  | .pow => 14

/-- The lowest level of a left operand: only `**` associates to the right. -/
def leftLevel (op : BinaryOp) : Nat := if op = .pow then 15 else precedence op

def rightLevel (op : BinaryOp) : Nat := if op = .pow then 14 else precedence op + 1

def enclose (parentheses : Prop) [Decidable parentheses] (ts : List Token) : List Token :=
  if parentheses then word .lparen (ascii "(") :: (ts ++ [word .rparen (ascii ")")]) else ts

/-- Single spaces between the tokens. -/
def spaced (ts : List Token) : Bytes := [0x20].intercalate (ts.map Token.lexeme)

namespace Formula

def level : Formula → Nat
  | var _ => 16
  | int _ => 16
  | unary .. => 15
  | binary _ op _ => precedence op
  | ternary .. => 1
  | assign .. => 0

def body : Formula → List Token
  | var v => [v.token]
  | int n => [n.token]
  | unary sign right => sign.token :: enclose (right.level < 15) right.body
  | binary left op right =>
    enclose (left.level < leftLevel op) left.body ++
      opToken op :: enclose (right.level < rightLevel op) right.body
  | ternary condition thenBranch elseBranch =>
    enclose (condition.level < 2) condition.body ++
      word .question (ascii "?") :: (enclose (thenBranch.level < 1) thenBranch.body ++
        word .colon (ascii ":") :: enclose (elseBranch.level < 1) elseBranch.body)
  | assign v value => v.token :: word .assign (ascii "=") :: value.body

/-- The tokens where the grammar has the level `k`. -/
def tokensAt (k : Nat) (f : Formula) : List Token := enclose (f.level < k) f.body

def print (f : Formula) : Bytes := spaced f.body

end Formula

/-! ## Reading the tokens back -/

/-- The lexer reads the lexeme as the token, on the first line. -/
def IsWord (t : Token) : Prop :=
  t.line = 1 ∧ ∃ c u, t.lexeme = c :: u ∧ munch c u = .ok ⟨.token t.type t.literal t.raw, u, 0, []⟩

theorem munch_variable (v : Variable) :
    munch 0x24 v.name = .ok ⟨.token .ident none false, v.name, 0, []⟩ := by
  have htake : v.name.takeWhile isName = v.name := List.takeWhile_eq_self_iff.mpr v.isName
  have hdrop : v.name.dropWhile isName = [] := List.dropWhile_eq_nil_iff.mpr v.isName
  have hbare : keywords.all (fun entry => entry.1.head? != some 0x24) := by decide
  have hkeyword : AssocList.lookup (0x24 :: v.name) keywords = none := by
    refine AssocList.lookup_eq_none fun hmem => ?_
    obtain ⟨entry, hentry, heq⟩ := List.mem_map.mp hmem
    have hhead := List.all_eq_true.mp hbare entry hentry
    rw [heq] at hhead
    cases hhead
  change Except.ok (identifier 0x24 v.name) = _
  rw [identifier, htake, hdrop, hkeyword]
  rfl

theorem isDigit_notBase {x : UInt8} (hx : isDigit x) : isBase x = false := by
  rw [Bool.eq_false_iff]
  intro h
  simp only [isBase, Bool.or_eq_true, decide_eq_true_eq] at h
  obtain ((rfl | rfl) | rfl) | rfl := h <;> cases hx

theorem number_digits {ds : Bytes} (hds : ∀ d ∈ ds, isDigit d) : number ds = (.number, ds, []) := by
  have hgrouped : ∀ d ∈ ds, isGrouped d := fun d hd => by rw [isGrouped, hds d hd, Bool.true_or]
  have htake : ds.takeWhile isGrouped = ds := List.takeWhile_eq_self_iff.mpr hgrouped
  have hdrop : ds.dropWhile isGrouped = [] := List.dropWhile_eq_nil_iff.mpr hgrouped
  rw [number_decimal, number.decimal, htake, hdrop]
  · change (TokenType.number, ds ++ [] ++ [], ([] : Bytes)) = _
    rw [List.append_nil, List.append_nil]
  · intro x hx hpre
    have hmem : x ∈ ds := hpre.subset (List.mem_cons_of_mem _ List.mem_cons_self)
    rw [isDigit_notBase (hds x hmem)] at hx
    cases hx

theorem munch_digits {c : UInt8} {ds : Bytes} (hc : isDigit c) (hds : ∀ d ∈ ds, isDigit d) :
    munch c ds = .ok ⟨.token .number (some (c :: ds)) false, ds, 0, []⟩ := by
  have hne {b : UInt8} (hb : isDigit b = false) : c ≠ b := by
    rintro rfl
    rw [hc] at hb
    cases hb
  have hoperators : operators.all (fun entry => !isDigit entry.1) := by decide
  have hlookup : AssocList.lookup c operators = none := by
    refine AssocList.lookup_eq_none fun hmem => ?_
    obtain ⟨entry, hentry, heq⟩ := List.mem_map.mp hmem
    have hnot := List.all_eq_true.mp hoperators entry hentry
    rw [heq, hc] at hnot
    cases hnot
  have hblank : ¬isBlank c := by
    simp only [isBlank, Bool.or_eq_true, decide_eq_true_eq]
    exact fun h => h.elim (fun h => h.elim (hne rfl) (hne rfl)) (hne rfl)
  have hquote : ¬(c = 0x22 ∨ c = 0x27) := fun h => h.elim (hne rfl) (hne rfl)
  have hall : ∀ d ∈ c :: ds, isDigit d := List.forall_mem_cons.mpr ⟨hc, hds⟩
  rw [munch, hlookup]
  dsimp only
  rw [if_neg (hne rfl), if_neg (hne rfl), if_neg hblank, if_neg (hne rfl), if_neg (hne rfl),
    if_neg hquote, if_neg (hne rfl), if_pos hc, number_digits hall]
  rfl

/-- The digits of an integer literal. -/
theorem lexeme_digits (n : Literal) :
    ∃ c ds, n.lexeme = c :: ds ∧ ∀ d ∈ c :: ds, isDigit d := by
  have htext : n.lexeme = (Nat.toDigits 10 n.value).map fun c => UInt8.ofNat c.toNat := by
    rw [Literal.lexeme, intText_eq, numeral, Int.natAbs_natCast,
      decide_eq_false (Int.not_lt.mpr (Int.natCast_nonneg _)), if_neg Bool.false_ne_true,
      List.nil_append]
  have hdigits : ∀ d ∈ n.lexeme, isDigit d := by
    rw [htext]
    intro d hd
    obtain ⟨c, hc, rfl⟩ := List.mem_map.mp hd
    obtain ⟨hlow, hhigh⟩ := isDigitChar_iff.mp (isDigitChar_of_mem_toDigits hc)
    have hnat : (UInt8.ofNat c.toNat).toNat = c.toNat := by
      rw [UInt8.toNat_ofNat', Nat.mod_eq_of_lt (Nat.lt_of_le_of_lt hhigh (by decide))]
    simp only [isDigit, Bool.and_eq_true, decide_eq_true_eq, UInt8.le_iff_toNat_le, hnat]
    exact ⟨hlow, hhigh⟩
  cases hlexeme : n.lexeme with
  | nil =>
    rw [htext, List.map_eq_nil_iff] at hlexeme
    exact absurd hlexeme Nat.toDigits_ne_nil
  | cons c ds => exact ⟨c, ds, rfl, hlexeme ▸ hdigits⟩

theorem isWord_variable (v : Variable) : IsWord v.token := ⟨rfl, 0x24, v.name, rfl, munch_variable v⟩

theorem isWord_literal (n : Literal) : IsWord n.token := by
  obtain ⟨c, ds, hlexeme, hdigits⟩ := lexeme_digits n
  rw [List.forall_mem_cons] at hdigits
  refine ⟨rfl, c, ds, hlexeme, ?_⟩
  change munch c ds = .ok ⟨.token .number (some n.lexeme) false, ds, 0, []⟩
  rw [hlexeme]
  exact munch_digits hdigits.1 hdigits.2

theorem isWord_sign (sign : Sign) : IsWord sign.token := by
  cases sign <;> exact ⟨rfl, _, _, rfl, rfl⟩

theorem isWord_opToken (op : BinaryOp) : IsWord (opToken op) := by
  cases op <;> exact ⟨rfl, _, _, rfl, rfl⟩

theorem isWord_enclose {parentheses : Prop} [Decidable parentheses] {ts : List Token}
    (h : ∀ t ∈ ts, IsWord t) : ∀ t ∈ enclose parentheses ts, IsWord t := by
  unfold enclose
  split
  · refine List.forall_mem_cons.mpr ⟨⟨rfl, _, _, rfl, rfl⟩, List.forall_mem_append.mpr ⟨h, ?_⟩⟩
    exact List.forall_mem_singleton.mpr ⟨rfl, _, _, rfl, rfl⟩
  · exact h

theorem Formula.isWord (f : Formula) : ∀ t ∈ f.body, IsWord t := by
  induction f with
  | var v => exact List.forall_mem_singleton.mpr (isWord_variable v)
  | int n => exact List.forall_mem_singleton.mpr (isWord_literal n)
  | unary sign right ih => exact List.forall_mem_cons.mpr ⟨isWord_sign sign, isWord_enclose ih⟩
  | binary left op right ihl ihr =>
    refine List.forall_mem_append.mpr ⟨isWord_enclose ihl, ?_⟩
    exact List.forall_mem_cons.mpr ⟨isWord_opToken op, isWord_enclose ihr⟩
  | ternary condition thenBranch elseBranch ihc iht ihe =>
    refine List.forall_mem_append.mpr ⟨isWord_enclose ihc, ?_⟩
    refine List.forall_mem_cons.mpr ⟨⟨rfl, _, _, rfl, rfl⟩, ?_⟩
    refine List.forall_mem_append.mpr ⟨isWord_enclose iht, ?_⟩
    exact List.forall_mem_cons.mpr ⟨⟨rfl, _, _, rfl, rfl⟩, isWord_enclose ihe⟩
  | assign v value ih =>
    refine List.forall_mem_cons.mpr ⟨isWord_variable v, ?_⟩
    exact List.forall_mem_cons.mpr ⟨⟨rfl, _, _, rfl, rfl⟩, ih⟩

theorem spaced_cons (t t' : Token) (ts : List Token) :
    spaced (t :: t' :: ts) = t.lexeme ++ 0x20 :: spaced (t' :: ts) := by
  rw [spaced, List.map_cons, List.map_cons, List.intercalate_cons_cons, List.append_assoc]
  rfl

/-- What the loop of the lexer does with a word that a space or the end of the text is behind. -/
theorem scanLoop_word {t : Token} (h : IsWord t) {σ : Lexer} (hline : σ.line = 1) {r : Bytes}
    (hr : ∀ c ∈ r.head?, c = 0x20) (n : Nat) :
    ∃ κ, scanLoop (n + 1) σ (t.lexeme ++ r) = scanLoop n ⟨κ, 1, σ.tokens ++ [t]⟩ r := by
  obtain ⟨htline, c, u, hlexeme, hmunch⟩ := h
  obtain ⟨κ, line, tokens⟩ := σ
  obtain ⟨type, lexeme, literal, line', raw⟩ := t
  obtain rfl : line = 1 := hline
  obtain rfl : line' = 1 := htline
  obtain rfl : lexeme = c :: u := hlexeme
  have halike : Alike [] r := by
    cases r with
    | nil => exact .nil []
    | cons b r =>
      obtain rfl : b = 0x20 := hr b rfl
      exact .sep [] r rfl nofun
  have hscan : munch c (u ++ r) = .ok ⟨.token type literal raw, u, 0, r⟩ :=
    munch_change hmunch halike
  refine ⟨κ.add type, ?_⟩
  change scanLoop (n + 1) _ (c :: (u ++ r)) = _
  rw [scanLoop, scanToken, hscan]
  rfl

theorem scanLoop_words {ts : List Token} (hts : ∀ t ∈ ts, IsWord t) {σ : Lexer}
    (hline : σ.line = 1) {n : Nat} (hn : (spaced ts).length ≤ n) :
    ∃ κ, scanLoop n σ (spaced ts) = .ok ⟨κ, 1, σ.tokens ++ ts⟩ := by
  induction ts generalizing σ n with
  | nil =>
    obtain ⟨κ, line, tokens⟩ := σ
    obtain rfl : line = 1 := hline
    refine ⟨κ, ?_⟩
    rw [List.append_nil]
    cases n <;> rfl
  | cons t ts ih =>
    rw [List.forall_mem_cons] at hts
    obtain ⟨_, c, u, hlexeme, _⟩ := hts.1
    have hpos : 0 < t.lexeme.length := by
      rw [hlexeme]
      exact Nat.succ_pos _
    cases ts with
    | nil =>
      have hspaced : spaced [t] = t.lexeme ++ [] := by
        rw [List.append_nil]
        exact List.intercalate_singleton
      rw [hspaced, List.append_nil] at hn
      obtain ⟨n, rfl⟩ := Nat.exists_eq_add_of_lt (Nat.lt_of_lt_of_le hpos hn)
      obtain ⟨κ, hscan⟩ := scanLoop_word hts.1 hline (r := []) nofun (0 + n)
      refine ⟨κ, ?_⟩
      rw [hspaced, hscan]
      cases 0 + n <;> rfl
    | cons t' ts =>
      rw [spaced_cons] at hn ⊢
      rw [List.length_append, List.length_cons] at hn
      obtain ⟨m, rfl⟩ : ∃ m, n = m + 1 + 1 := ⟨n - 2, by omega⟩
      obtain ⟨κ, hword⟩ := scanLoop_word hts.1 hline (r := 0x20 :: spaced (t' :: ts))
        (fun c hc => (Option.some.inj hc).symm) (m + 1)
      have hblank : scanLoop (m + 1) ⟨κ, 1, σ.tokens ++ [t]⟩ (0x20 :: spaced (t' :: ts)) =
          scanLoop m ⟨κ, 1, σ.tokens ++ [t]⟩ (spaced (t' :: ts)) := rfl
      obtain ⟨κ', hrest⟩ := ih hts.2 (σ := ⟨κ, 1, σ.tokens ++ [t]⟩) rfl (n := m) (by omega)
      refine ⟨κ', ?_⟩
      rw [hword, hblank, hrest, List.append_assoc]
      rfl

/-- What the lexer puts at the end of a file. -/
inductive Ending : List Token → Prop where
  | semicolon : Ending [word .semicolon [0x3B], word .eof []]
  | eof : Ending [word .eof []]

theorem skipBom_spaced {ts : List Token} (hts : ∀ t ∈ ts, IsWord t) :
    skipBom (spaced ts) = spaced ts := by
  cases ts with
  | nil => rfl
  | cons t ts =>
    obtain ⟨_, c, u, hlexeme, hmunch⟩ := hts t List.mem_cons_self
    have hspaced : ∃ r, spaced (t :: ts) = c :: r := by
      cases ts with
      | nil => exact ⟨u, (List.intercalate_singleton).trans hlexeme⟩
      | cons t' ts =>
        rw [spaced_cons, hlexeme]
        exact ⟨_, rfl⟩
    obtain ⟨r, hspaced⟩ := hspaced
    have hne : c ≠ 0xEF := by
      rintro rfl
      cases hmunch
    rw [skipBom, hspaced, if_neg]
    intro hpre
    simp only [List.isPrefixOf, Bool.and_eq_true, beq_iff_eq] at hpre
    exact hne hpre.1.symm

/-- The lexer reads the tokens of the formula back. -/
theorem scanTokens_print (f : Formula) :
    ∃ ending, Ending ending ∧ scanTokens f.print = .ok (f.body ++ ending) := by
  obtain ⟨κ, hloop⟩ := scanLoop_words f.isWord (σ := ⟨.start, 1, []⟩) rfl (Nat.le_refl _)
  have htokens : scanTokens f.print =
      .ok (((⟨κ, 1, f.body⟩ : Lexer).endLine []).push .eof [] none false).tokens := by
    rw [scanTokens, Formula.print, skipBom_spaced f.isWord, hloop]
    rfl
  rw [htokens, Lexer.endLine]
  split
  · exact ⟨_, .semicolon, by simp [Lexer.push, word]⟩
  · exact ⟨_, .eof, by simp [Lexer.push, word]⟩

end Syntax

end Look
