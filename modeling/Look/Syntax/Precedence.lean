/-
The parser gives back the expression that was written.

`levelParser k` is the function of the grammar for level `k`.  `Stops k ts` says that it reads
none of `ts`.  A formula that is not of level `k` has the tokens there that it has at level
`k + 1`, and the function for `k` adds nothing (`readsAt_of_succ`); the operators that associate to
the left are read by a loop, so that for them the induction is about the loop behind the left
operand (`Chains`).  What is left are the limits of the parser.
-/
import Look.Lib.Loop
import Look.Syntax.Formula
import Mathlib.Tactic.IntervalCases

namespace Look

namespace Syntax

open Exec

section Grammar

variable (strtod : Bytes → Double) (c : Calls)

/-- The function of the grammar for each level. -/
def levelParser : Nat → Parser Expr
  | 0 => assignment strtod c
  | 1 => ternary strtod c
  | 2 => nullCoalescing strtod c
  | 3 => logicalOr strtod c
  | 4 => logicalAnd strtod c
  | 5 => bitwiseOr strtod c
  | 6 => bitwiseXor strtod c
  | 7 => bitwiseAnd strtod c
  | 8 => equality strtod c
  | 9 => comparison strtod c
  | 10 => shift strtod c
  | 11 => concatenation strtod c
  | 12 => addition strtod c
  | 13 => multiplication strtod c
  | 14 => power strtod c
  | 15 => unary strtod c
  | _ => postfixExpr strtod c

/-- The operators of the levels that associate to the left. -/
def levelOps : Nat → List (TokenType × BinaryOp)
  | 2 => [(.questionQuestion, .coalesce)]
  | 3 => [(.pipePipe, .or)]
  | 4 => [(.ampAmp, .and)]
  | 5 => [(.pipe, .bitOr)]
  | 6 => [(.caret, .bitXor)]
  | 7 => [(.amp, .bitAnd)]
  | 8 => [(.equalEqual, .eq), (.bangEqual, .neq)]
  | 9 => [(.spaceship, .cmp3), (.greater, .gt), (.greaterEqual, .gte), (.less, .lt),
      (.lessEqual, .lte)]
  | 10 => [(.lessLess, .shl), (.greaterGreater, .shr)]
  | 11 => [(.dot, .concat)]
  | 12 => [(.plus, .add), (.minus, .sub)]
  | 13 => [(.star, .mul), (.slash, .div), (.percent, .mod)]
  | _ => []

theorem levelParser_binary {k : Nat} (hlow : 2 ≤ k) (hhigh : k ≤ 13) :
    levelParser strtod c k = binaryLevel (levelOps k) (levelParser strtod c (k + 1)) := by
  interval_cases k <;> rfl

end Grammar

/-! ## What ends an expression -/

/-- The level whose function reads on at a token, if there is one. -/
def rank : TokenType → Option Nat
  | .assign | .plusAssign | .minusAssign | .starAssign | .slashAssign | .percentAssign
  | .dotAssign | .ampAssign | .pipeAssign | .caretAssign => some 0
  | .question => some 1
  | .questionQuestion => some 2
  | .pipePipe => some 3
  | .ampAmp => some 4
  | .pipe => some 5
  | .caret => some 6
  | .amp => some 7
  | .equalEqual | .bangEqual => some 8
  | .spaceship | .greater | .greaterEqual | .less | .lessEqual => some 9
  | .lessLess | .greaterGreater => some 10
  | .dot => some 11
  | .plus | .minus => some 12
  | .star | .slash | .percent => some 13
  | .starStar => some 14
  | .plusPlus | .minusMinus | .lparen | .lbracket | .colonColon => some 16
  | _ => none

/-- The function for level `k` reads none of the tokens. -/
structure Stops (k : Nat) (ts : List Token) : Prop where
  rank_lt : ∀ r ∈ rank (ts.headD eofToken).type, r < k
  noMember : memberAhead ts = false

theorem Stops.mono {k k' : Nat} {ts : List Token} (h : Stops k ts) (hk : k ≤ k') : Stops k' ts :=
  ⟨fun r hr => Nat.lt_of_lt_of_le (h.rank_lt r hr) hk, h.noMember⟩

/-! ## Reading tokens -/

def tooDeep : Bytes := ascii "Expression nested too deep (max 150)"

def tooLong : Bytes := ascii "Expression chain too long (max 1000 consecutive binary operators)"

/-- A run that only the limits of the parser may stop. -/
def limits : Moves Reading ParseError where
  rel _ _ := True
  err e _ _ := e.message = tooDeep ∨ e.message = tooLong
  refl _ := trivial
  trans _ _ := trivial
  absorb _ h := h

section

variable {α β : Type} {m : Parser α} {s : Reading} {Q : α → Reading → Prop}

abbrev Within (m : Parser α) (s : Reading) (Q : α → Reading → Prop) : Prop := Finishes limits m s Q

theorem Within.bind {f : α → Parser β} {Q' : β → Reading → Prop} (hm : Within m s Q)
    (hf : ∀ a s', Q a s' → Within (f a) s' Q') : Within (m >>= f) s Q' :=
  Finishes.bind hm fun a s' _ hq => hf a s' hq

theorem Within.of_ok {a : α} {t : Reading} (h : m s = .ok a t) (hq : Q a t) : Within m s Q := by
  unfold Within Finishes
  rw [h]
  exact ⟨trivial, hq⟩

theorem peek_of_ahead {t : Token} {rest : List Token} (h : s.ahead = t :: rest) : s.peek = t := by
  rw [Reading.peek, h]
  rfl

theorem advance_of_ahead {t : Token} {rest : List Token} (h : s.ahead = t :: rest)
    (hne : t.type ≠ .eof) : s.advance = { s with ahead := rest, previous := some t } := by
  rw [Reading.advance, peek_of_ahead h, if_neg hne, h]
  rfl

theorem accept_apply (type : TokenType) (s : Reading) :
    accept type s =
      if s.peek.type ≠ .eof ∧ s.peek.type = type then .ok true s.advance else .ok false s := by
  change (if decide (s.peek.type ≠ .eof ∧ s.peek.type = type) = true then
    (do advance; pure true : Parser Bool) else pure false) s = _
  by_cases h : s.peek.type ≠ .eof ∧ s.peek.type = type
  · rw [if_pos h, if_pos (decide_eq_true h)]
    rfl
  · rw [if_neg h, if_neg (decide_eq_false h ▸ Bool.false_ne_true)]
    rfl

theorem accept_yes {type : TokenType} {t : Token} {rest : List Token} (h : s.ahead = t :: rest)
    (htype : t.type = type) (hne : type ≠ .eof) :
    Within (accept type) s fun b s' => b = true ∧ s'.ahead = rest := by
  refine .of_ok (a := true) (t := s.advance) ?_ ⟨rfl, ?_⟩
  · rw [accept_apply, peek_of_ahead h, htype, if_pos ⟨hne, rfl⟩]
  · rw [advance_of_ahead h (htype ▸ hne)]

theorem accept_no {type : TokenType} (h : s.peek.type ≠ type) :
    Within (accept type) s fun b s' => b = false ∧ s' = s := by
  refine .of_ok (a := false) (t := s) ?_ ⟨rfl, rfl⟩
  rw [accept_apply, if_neg fun hboth => h hboth.2]

theorem acceptAny_apply (table : List (TokenType × β)) (s : Reading) :
    acceptAny table s =
      match AssocList.lookup s.peek.type table with
      | some b => .ok (some b) s.advance
      | none => .ok none s := by
  change (match AssocList.lookup s.peek.type table with
    | some b => (do advance; pure (some b) : Parser (Option β))
    | none => pure none) s = _
  cases AssocList.lookup s.peek.type table <;> rfl

theorem acceptAny_yes {table : List (TokenType × β)} {b : β} {t : Token} {rest : List Token}
    (h : s.ahead = t :: rest) (hlookup : AssocList.lookup t.type table = some b)
    (hne : t.type ≠ .eof) :
    Within (acceptAny table) s fun o s' => o = some b ∧ s'.ahead = rest := by
  refine .of_ok (a := some b) (t := s.advance) ?_ ⟨rfl, ?_⟩
  · rw [acceptAny_apply, peek_of_ahead h, hlookup]
  · rw [advance_of_ahead h hne]

theorem acceptAny_no {table : List (TokenType × β)} (h : AssocList.lookup s.peek.type table = none) :
    Within (acceptAny table) s fun o s' => o = none ∧ s' = s := by
  refine .of_ok (a := none) (t := s) ?_ ⟨rfl, rfl⟩
  rw [acceptAny_apply, h]

theorem consume_yes {type : TokenType} {t : Token} {rest : List Token} (h : s.ahead = t :: rest)
    (htype : t.type = type) (hne : type ≠ .eof) (message : Bytes) :
    Within (consume type message) s fun t' s' => t' = t ∧ s'.ahead = rest := by
  refine .of_ok (a := t) (t := s.advance) ?_ ⟨rfl, ?_⟩
  · change (if decide (s.peek.type ≠ .eof ∧ s.peek.type = type) = true then
      (do let t ← peek; advance; pure t : Parser Token) else failGot message) s = _
    rw [if_pos (decide_eq_true (by rw [peek_of_ahead h, htype]; exact ⟨hne, rfl⟩))]
    change Res.ok s.peek s.advance = _
    rw [peek_of_ahead h]
  · rw [advance_of_ahead h (htype ▸ hne)]

theorem fail_within {message : Bytes} (h : message = tooDeep ∨ message = tooLong) :
    Within (fail message) s Q := h

/-- A guard adds a way to fail, and nothing else that is seen here. -/
theorem exprGuard_within (hm : ∀ s', s'.ahead = s.ahead → Within m s' Q)
    (hq : ∀ a s' s'', Q a s' → s''.ahead = s'.ahead → Q a s'') : Within (exprGuard m) s Q := by
  refine Within.bind (Q := fun _ s' => s'.ahead = s.ahead) (.of_ok rfl rfl) fun _ s' hs' => ?_
  refine Finishes.gets_bind (.ite (fun _ => fail_within (.inl rfl)) fun _ => ?_)
  refine (hm s' hs').bind fun a s₁ h₁ => ?_
  exact Within.bind (Q := fun _ s₂ => s₂.ahead = s₁.ahead) (.of_ok rfl rfl) fun _ s₂ h₂ =>
    .of_ok rfl (hq a s₁ s₂ h₁ h₂)

theorem checkBinopChain_within (s : Reading) :
    Within checkBinopChain s fun _ s' => s'.ahead = s.ahead := by
  refine Within.bind (Q := fun _ s' => s'.ahead = s.ahead) (.of_ok rfl rfl) fun _ s' hs' => ?_
  exact Finishes.gets_bind (.ite (fun _ => fail_within (.inr rfl)) fun _ => Within.of_ok rfl hs')

end

/-! ## From one level to the next -/

theorem Stops.peek_ne {k r : Nat} {type : TokenType} {s : Reading} (h : Stops k s.ahead)
    (hr : rank type = some r) (hk : k ≤ r) : s.peek.type ≠ type := by
  intro htype
  have hmem : rank s.peek.type = some r := htype ▸ hr
  exact absurd (h.rank_lt r hmem) (Nat.not_lt.mpr hk)

theorem Stops.lookup_eq_none {β : Type} {k : Nat} {table : List (TokenType × β)} {s : Reading}
    (h : Stops k s.ahead) (htable : ∀ entry ∈ table, ∃ r, rank entry.1 = some r ∧ k ≤ r) :
    AssocList.lookup s.peek.type table = none := by
  refine AssocList.lookup_eq_none fun hmem => ?_
  obtain ⟨entry, hentry, htype⟩ := List.mem_map.mp hmem
  obtain ⟨r, hr, hk⟩ := htable entry hentry
  exact h.peek_ne hr hk htype.symm

/-- The first token of what a postfix expression begins with. -/
def opens (type : TokenType) : Bool := type = .ident || type = .number || type = .lparen

section Levels

variable {strtod : Bytes → Double} {c : Calls} {k : Nat} {s : Reading} {e : Expr}
  {ts rest : List Token}

/-- The parser reads `e` and stops before `rest`. -/
abbrev Gives (m : Parser Expr) (s : Reading) (e : Expr) (rest : List Token) : Prop :=
  Within m s fun e' s' => e' = e ∧ s'.ahead = rest

theorem assignOps_ranks : ∀ entry ∈ assignOps, ∃ r, rank entry.1 = some r ∧ 0 ≤ r := by
  have hall : assignOps.all fun entry => rank entry.1 == some 0 := by decide
  exact fun entry hentry => ⟨0, by simpa using List.all_eq_true.mp hall entry hentry, Nat.le_refl _⟩

theorem levelOps_ranks (k : Nat) : ∀ entry ∈ levelOps k, ∃ r, rank entry.1 = some r ∧ k ≤ r := by
  have hall : (levelOps k).all fun entry => rank entry.1 == some k := by
    unfold levelOps
    split <;> rfl
  exact fun entry hentry => ⟨k, by simpa using List.all_eq_true.mp hall entry hentry, Nat.le_refl _⟩

/-- The loop of a level ends where no operator of the level follows. -/
theorem binaryStep_stops (hstops : Stops k rest) (hs : s.ahead = rest) {fuel : Nat}
    (hfuel : 0 < fuel) (operand : Parser Expr) :
    Gives (iterate (binaryStep (levelOps k) operand) fuel e) s e rest := by
  obtain ⟨fuel, rfl⟩ := Nat.exists_eq_add_of_lt hfuel
  rw [Nat.zero_add, iterate]
  refine Within.bind (Q := fun t s' => t = .done e ∧ s'.ahead = rest) ?_ fun t s' ht => ?_
  · subst hs
    refine (acceptAny_no (hstops.lookup_eq_none (levelOps_ranks k))).bind fun o s' ho => ?_
    obtain ⟨rfl, rfl⟩ := ho
    exact .of_ok rfl ⟨rfl, rfl⟩
  · obtain ⟨rfl, hs'⟩ := ht
    exact .of_ok rfl ⟨rfl, hs'⟩

theorem gives_of_succ (hk : k < 16) (hstops : Stops k rest)
    (hfirst : k = 15 → ∃ t ts', ts = t :: ts' ∧ opens t.type)
    (hnext : ∀ s, s.ahead = ts ++ rest → Gives (levelParser strtod c (k + 1)) s e rest)
    (hs : s.ahead = ts ++ rest) : Gives (levelParser strtod c k) s e rest := by
  by_cases hbinary : 2 ≤ k ∧ k ≤ 13
  · rw [levelParser_binary strtod c hbinary.1 hbinary.2]
    refine (hnext s hs).bind fun e' s' he' => ?_
    obtain ⟨rfl, hs'⟩ := he'
    exact Finishes.gets_bind (binaryStep_stops hstops hs' (Nat.succ_pos _) _)
  obtain rfl | rfl | rfl | rfl : k = 0 ∨ k = 1 ∨ k = 14 ∨ k = 15 := by omega
  · refine (hnext s hs).bind fun e' s' he' => ?_
    obtain ⟨rfl, rfl⟩ := he'
    refine (acceptAny_no (hstops.lookup_eq_none assignOps_ranks)).bind fun o s₁ ho => ?_
    obtain ⟨rfl, rfl⟩ := ho
    exact .of_ok rfl ⟨rfl, rfl⟩
  · refine (hnext s hs).bind fun e' s' he' => ?_
    obtain ⟨rfl, rfl⟩ := he'
    refine (accept_no (hstops.peek_ne rfl (Nat.le_refl _))).bind fun b s₁ hb => ?_
    obtain ⟨rfl, rfl⟩ := hb
    exact .of_ok rfl ⟨rfl, rfl⟩
  · refine exprGuard_within (fun s₁ hs₁ => ?_) fun a s₁ s₂ h₁ h₂ => ⟨h₁.1, h₂.trans h₁.2⟩
    refine (hnext s₁ (hs₁.trans hs)).bind fun e' s' he' => ?_
    obtain ⟨rfl, rfl⟩ := he'
    refine (accept_no (hstops.peek_ne rfl (Nat.le_refl _))).bind fun b s₂ hb => ?_
    obtain ⟨rfl, rfl⟩ := hb
    exact .of_ok rfl ⟨rfl, rfl⟩
  · refine exprGuard_within (fun s₁ hs₁ => ?_) fun a s₁ s₂ h₁ h₂ => ⟨h₁.1, h₂.trans h₁.2⟩
    obtain ⟨t, ts', rfl, hopens⟩ := hfirst rfl
    have hpeek : s₁.peek = t := peek_of_ahead (hs₁.trans hs)
    have hne {type : TokenType} (htype : opens type = false) : s₁.peek.type ≠ type := by
      rw [hpeek]
      rintro rfl
      rw [hopens] at htype
      cases htype
    refine (accept_no (hne rfl)).bind fun b s' hb => ?_
    obtain ⟨rfl, rfl⟩ := hb
    refine (accept_no (hne rfl)).bind fun b s₂ hb => ?_
    obtain ⟨rfl, rfl⟩ := hb
    have hsigns : AssocList.lookup s₂.peek.type prefixOps = none := by
      refine AssocList.lookup_eq_none fun hmem => ?_
      simp only [prefixOps, List.map_cons, List.map_nil, List.mem_cons, List.not_mem_nil,
        or_false] at hmem
      obtain htype | htype | htype := hmem <;> exact hne rfl htype
    refine (acceptAny_no hsigns).bind fun o s₃ ho => ?_
    obtain ⟨rfl, rfl⟩ := ho
    exact hnext s₃ (hs₁.trans hs)

/-! ## Operands -/

theorem callStep_stops (hstops : Stops 16 rest) (hs : s.ahead = rest) (e : Expr) :
    Gives (loop (callStep c) e) s e rest := by
  subst hs
  refine Finishes.gets_bind ?_
  rw [iterate]
  refine Within.bind (Q := fun t s' => t = .done e ∧ s' = s) ?_ fun t s' ht => ?_
  · refine (accept_no (hstops.peek_ne rfl (Nat.le_refl _))).bind fun b s' hb => ?_
    obtain ⟨rfl, rfl⟩ := hb
    refine (accept_no (hstops.peek_ne rfl (Nat.le_refl _))).bind fun b s' hb => ?_
    obtain ⟨rfl, rfl⟩ := hb
    refine Finishes.gets_bind ?_
    rw [hstops.noMember]
    exact Within.of_ok rfl ⟨rfl, rfl⟩
  · obtain ⟨rfl, rfl⟩ := ht
    exact .of_ok rfl ⟨rfl, rfl⟩

/-- A postfix expression that is an operand only. -/
theorem postfixExpr_stops (hstops : Stops 16 rest) (hprimary : Gives (primary strtod c) s e rest) :
    Gives (postfixExpr strtod c) s e rest := by
  refine Within.bind (Q := fun e' s' => e' = e ∧ s'.ahead = rest) ?_ fun e' s' he' => ?_
  · refine hprimary.bind fun e' s' he' => ?_
    obtain ⟨rfl, hs'⟩ := he'
    exact callStep_stops hstops hs' e'
  · obtain ⟨rfl, rfl⟩ := he'
    refine (accept_no (hstops.peek_ne rfl (Nat.le_refl _))).bind fun b s' hb => ?_
    obtain ⟨rfl, rfl⟩ := hb
    refine (accept_no (hstops.peek_ne rfl (Nat.le_refl _))).bind fun b s' hb => ?_
    obtain ⟨rfl, rfl⟩ := hb
    exact .of_ok rfl ⟨rfl, rfl⟩

theorem advance_within {t : Token} (hs : s.ahead = t :: rest) (hne : t.type ≠ .eof) :
    Within advance s fun _ s' => s'.ahead = rest :=
  .of_ok rfl (congrArg Reading.ahead (advance_of_ahead hs hne))

theorem primary_variable (v : Variable) (hstops : Stops 16 rest) (hs : s.ahead = v.token :: rest) :
    Gives (primary strtod c) s (.var (chars v.lexeme)) rest := by
  refine Finishes.gets_bind ?_
  rw [peek_of_ahead hs]
  refine (advance_within hs nofun).bind fun _ s' hs' => ?_
  refine Finishes.gets_bind (.ite (fun h => nomatch h) fun _ => ?_)
  subst hs'
  refine (accept_no (hstops.peek_ne rfl (Nat.le_refl _))).bind fun b s₁ hb => ?_
  obtain ⟨rfl, rfl⟩ := hb
  exact .of_ok rfl ⟨rfl, rfl⟩

theorem numberValue_literal (n : Literal) :
    numberValue (dropUnderscores n.lexeme) = some (Int64.ofInt n.value) := by
  obtain ⟨d, ds, hlexeme, hdigits⟩ := lexeme_digits n
  have hdrop : dropUnderscores n.lexeme = n.lexeme := by
    refine List.filter_eq_self.mpr fun b hb => ?_
    rw [hlexeme] at hb
    have hb := hdigits b hb
    refine decide_eq_true ?_
    rintro rfl
    cases hb
  have hdecimal : numberValue.decimal n.lexeme = some (Int64.ofInt n.value) := by
    have hsmall := n.small
    have hrange : ¬(decide ((n.value : Int) < int64Min) || decide (int64Max < (n.value : Int))) := by
      have hmax : (n.value : Int) ≤ int64Max := by
        unfold int64Max
        omega
      have hmin : int64Min ≤ (n.value : Int) := by
        unfold int64Min
        omega
      simp [Int.not_lt.mpr hmax, Int.not_lt.mpr hmin]
    rw [numberValue.decimal, Literal.lexeme, stoll_intText, if_neg hrange]
  rw [hdrop, ← hdecimal, numberValue.eq_def]
  split
  · rename_i x d' digits heq
    have hx : isBase x = false := isDigit_notBase (hdigits x (by rw [← hlexeme, heq]; simp))
    simp only [isBase, Bool.or_eq_false_iff, decide_eq_false_iff_not] at hx
    obtain ⟨⟨⟨h78, h58⟩, h62⟩, h42⟩ := hx
    rw [if_neg (not_or.mpr ⟨h78, h58⟩), if_neg (not_or.mpr ⟨h62, h42⟩)]
  · rfl

theorem primary_literal (n : Literal) (hs : s.ahead = n.token :: rest) :
    Gives (primary strtod c) s (.numberLit (Int64.ofInt n.value)) rest := by
  refine Finishes.gets_bind ?_
  rw [peek_of_ahead hs]
  refine (advance_within hs (by rintro ⟨⟩)).bind fun _ s' hs' => ?_
  refine .of_ok (a := .numberLit (Int64.ofInt n.value)) (t := s') ?_ ⟨rfl, hs'⟩
  have hvalue := numberValue_literal n
  change numberLiteral strtod ⟨.number, n.lexeme, some n.lexeme, 1, false⟩ s' = _
  simp only [numberLiteral, literal, bind, Exec.bind, pure, Exec.pure, hvalue]

theorem expression_within {Q : Expr → Reading → Prop}
    (h : ∀ s', s'.ahead = s.ahead → Within (assignment strtod c) s' Q)
    (hq : ∀ a s' s'', Q a s' → s''.ahead = s'.ahead → Q a s'') :
    Within (expression strtod c) s Q := by
  refine exprGuard_within (fun s' hs' => ?_) hq
  refine Within.bind (Q := fun _ s₁ => s₁.ahead = s.ahead) (.of_ok rfl ?_) fun _ s₁ hs₁ => h s₁ hs₁
  rw [← hs']
  dsimp only
  split <;> rfl

theorem primary_parentheses {n : Nat} (hn : c.expression = expression strtod (Calls.at strtod n))
    (hs : s.ahead = word .lparen (ascii "(") :: (ts ++ word .rparen (ascii ")") :: rest))
    (h : ∀ s, s.ahead = ts ++ word .rparen (ascii ")") :: rest →
      Gives (assignment strtod (Calls.at strtod n)) s e (word .rparen (ascii ")") :: rest)) :
    Gives (primary strtod c) s e rest := by
  refine Finishes.gets_bind ?_
  rw [peek_of_ahead hs]
  refine (advance_within hs nofun).bind fun _ s' hs' => ?_
  rw [hn]
  refine Within.bind (Q := fun e' s₁ => e' = e ∧ s₁.ahead = word .rparen (ascii ")") :: rest)
    (expression_within (fun s₁ hs₁ => h s₁ (hs₁.trans hs')) fun a s₁ s₂ h₁ h₂ =>
      ⟨h₁.1, h₂.trans h₁.2⟩) fun e' s₁ he' => ?_
  obtain ⟨rfl, hs₁⟩ := he'
  exact (consume_yes hs₁ rfl nofun _).bind fun _ s₂ hs₂ => .of_ok rfl ⟨rfl, hs₂.2⟩

end Levels

/-! ## Formulas -/

theorem tokensAt_of_le {k : Nat} {f : Formula} (h : k ≤ f.level) : f.tokensAt k = f.body :=
  if_neg (Nat.not_lt.mpr h)

theorem tokensAt_of_lt {k : Nat} {f : Formula} (h : f.level < k) :
    f.tokensAt k = word .lparen (ascii "(") :: (f.body ++ [word .rparen (ascii ")")]) :=
  if_pos h

theorem tokensAt_succ {k : Nat} {f : Formula} (h : k ≠ f.level) :
    f.tokensAt (k + 1) = f.tokensAt k := by
  obtain hlt | hle := Nat.lt_or_ge f.level k
  · rw [tokensAt_of_lt hlt, tokensAt_of_lt (Nat.lt_succ_of_lt hlt)]
  · rw [tokensAt_of_le hle, tokensAt_of_le (by omega)]

theorem precedence_le (op : BinaryOp) : 2 ≤ precedence op ∧ precedence op ≤ 14 := by
  cases op <;> decide

theorem precedence_le_of_ne {op : BinaryOp} (h : op ≠ .pow) : precedence op ≤ 13 := by
  cases op <;> first | exact absurd rfl h | decide

theorem level_le (f : Formula) : f.level ≤ 16 := by
  cases f with
  | var v => exact Nat.le_refl _
  | int n => exact Nat.le_refl _
  | unary sign right => exact Nat.le_succ _
  | binary left op right => exact Nat.le_trans (precedence_le op).2 (by decide)
  | ternary condition thenBranch elseBranch => exact Nat.succ_le_succ (Nat.zero_le _)
  | assign v value => exact Nat.zero_le _

/-- The tokens begin as an expression does, and not with the name of a field. -/
def Begins (ts : List Token) : Prop :=
  ∃ t ts', ts = t :: ts' ∧ t.line = 1 ∧
    (t.type = .ident ∧ isBare t = false ∨
      t.type ∈ [TokenType.number, .lparen, .minus, .bang, .tilde])

theorem Begins.append {ts : List Token} (h : Begins ts) (ts' : List Token) : Begins (ts ++ ts') := by
  obtain ⟨t, rest, rfl, ht⟩ := h
  exact ⟨t, rest ++ ts', rfl, ht⟩

theorem Begins.enclose {ts : List Token} (h : Begins ts) (parentheses : Prop)
    [Decidable parentheses] : Begins (enclose parentheses ts) := by
  unfold Syntax.enclose
  split
  · exact ⟨_, _, rfl, rfl, .inr (by decide)⟩
  · exact h

theorem begins_body (f : Formula) : Begins f.body := by
  induction f with
  | var v => exact ⟨_, _, rfl, rfl, .inl ⟨rfl, rfl⟩⟩
  | int n => exact ⟨_, _, rfl, rfl, .inr List.mem_cons_self⟩
  | unary sign right =>
    exact ⟨_, _, rfl, by cases sign <;> rfl, .inr (by cases sign <;> decide)⟩
  | binary left op right ihl _ => exact (ihl.enclose _).append _
  | ternary condition thenBranch elseBranch ihc _ _ => exact (ihc.enclose _).append _
  | assign v value => exact ⟨_, _, rfl, rfl, .inl ⟨rfl, rfl⟩⟩

theorem begins_tokensAt (k : Nat) (f : Formula) : Begins (f.tokensAt k) := (begins_body f).enclose _

/-- The tokens of an operand begin with a name, a number or a parenthesis. -/
theorem opens_tokensAt (f : Formula) : ∃ t ts, f.tokensAt 16 = t :: ts ∧ opens t.type := by
  by_cases h : f.level < 16
  · rw [tokensAt_of_lt h]
    exact ⟨_, _, rfl, rfl⟩
  · cases f with
    | var v => exact ⟨_, _, rfl, rfl⟩
    | int n => exact ⟨_, _, rfl, rfl⟩
    | unary sign right => exact absurd (by decide : 15 < 16) h
    | binary left op right =>
      exact absurd (Nat.lt_of_le_of_lt (precedence_le op).2 (by decide)) h
    | ternary condition thenBranch elseBranch => exact absurd (by decide : 1 < 16) h
    | assign v value => exact absurd (by decide : 0 < 16) h

theorem stops_opToken {op : BinaryOp} {k : Nat} (hk : precedence op < k) {ts : List Token}
    (hts : Begins ts) : Stops k (opToken op :: ts) := by
  refine ⟨fun r hr => ?_, ?_⟩
  · have hrank : rank (opToken op).type = some (precedence op) := by cases op <;> rfl
    rw [List.headD_cons, hrank] at hr
    exact Option.some.inj hr ▸ hk
  · obtain ⟨t, ts, rfl, _, ⟨_, hbare⟩ | hmem⟩ := hts
    · simp [memberAhead, hbare]
    · have hname : t.type ≠ .ident := by
        intro hname
        rw [hname] at hmem
        exact absurd hmem (by decide)
      simp [memberAhead, hname]

/-- A token that no expression goes on with. -/
theorem stops_of_rank {t : Token} (hrank : rank t.type = none) (hdot : t.type ≠ .dot) (k : Nat)
    (ts : List Token) : Stops k (t :: ts) := by
  refine ⟨fun r hr => ?_, ?_⟩
  · rw [List.headD_cons, hrank] at hr
    cases hr
  · cases ts with
    | nil => rfl
    | cons t' ts => simp [memberAhead, hdot]

section ReadsAt

variable (strtod : Bytes → Double)

/-- The function for level `k` reads the formula. -/
def ReadsAt (k : Nat) (f : Formula) : Prop :=
  ∀ n rest s, (f.tokensAt k).length ≤ n → Stops k rest → s.ahead = f.tokensAt k ++ rest →
    Gives (levelParser strtod (Calls.at strtod n) k) s f.expr rest

/-- The function for level `k` comes to its loop with the formula; an operator of the level may
be the next token. -/
def Chains (k : Nat) (f : Formula) : Prop :=
  ∀ n rest s Q, (f.tokensAt k).length ≤ n → Stops (k + 1) rest → s.ahead = f.tokensAt k ++ rest →
    (∀ s' fuel, s'.ahead = rest → rest.length < fuel →
      Within (iterate (binaryStep (levelOps k) (levelParser strtod (Calls.at strtod n) (k + 1))) fuel
        f.expr) s' Q) →
    Within (levelParser strtod (Calls.at strtod n) k) s Q

variable {strtod} {k : Nat} {f : Formula}

theorem readsAt_of_chains (h : Chains strtod k f) : ReadsAt strtod k f :=
  fun n rest s hn hstops hs => h n rest s _ hn (hstops.mono (Nat.le_succ k)) hs
    fun _ _ hs' hfuel => binaryStep_stops hstops hs' (Nat.lt_of_le_of_lt (Nat.zero_le _) hfuel) _

theorem chains_of_runs (hlow : 2 ≤ k) (hhigh : k ≤ 13) (hk : k ≠ f.level)
    (h : ReadsAt strtod (k + 1) f) : Chains strtod k f := by
  intro n rest s Q hn hstops hs hloop
  rw [← tokensAt_succ hk] at hn hs
  rw [levelParser_binary _ _ hlow hhigh]
  refine (h n rest s hn hstops hs).bind fun e s' he => ?_
  obtain ⟨rfl, hs'⟩ := he
  refine Finishes.gets_bind (hloop s' _ hs' ?_)
  rw [hs']
  exact Nat.lt_succ_self _

theorem readsAt_of_succ (hhigh : k < 16) (hk : k ≠ f.level) (h : ReadsAt strtod (k + 1) f) :
    ReadsAt strtod k f := by
  intro n rest s hn hstops hs
  rw [← tokensAt_succ hk] at hn hs
  refine gives_of_succ hhigh hstops (fun hfirst => ?_)
    (fun s hs => h n rest s hn (hstops.mono (Nat.le_succ k)) hs) hs
  subst hfirst
  exact opens_tokensAt f

theorem readsAt_parentheses (hlevel : f.level < 16) (h : ReadsAt strtod 0 f) : ReadsAt strtod 16 f := by
  intro n rest s hn hstops hs
  rw [tokensAt_of_lt hlevel] at hn hs
  rw [List.length_cons, List.length_append, List.length_singleton] at hn
  obtain ⟨n, rfl⟩ : ∃ m, n = m + 1 := ⟨n - 1, by omega⟩
  rw [List.cons_append, List.append_assoc] at hs
  refine postfixExpr_stops hstops (primary_parentheses (n := n) rfl hs fun s' hs' => ?_)
  rw [← tokensAt_of_le (Nat.zero_le f.level)] at hs' hn
  exact h n _ s' (by omega) (stops_of_rank (t := word .rparen (ascii ")")) rfl nofun 0 rest) hs'

/-- What holds at the level of the formula holds at every one. -/
theorem readsAt_all (hown : ReadsAt strtod f.level f) {k : Nat} (hk : k ≤ 16) : ReadsAt strtod k f := by
  have hlower : ∀ k ≤ f.level, ReadsAt strtod k f := fun k hk =>
    Nat.decreasingInduction' (fun j hj _ ih =>
      readsAt_of_succ (Nat.lt_of_lt_of_le hj (level_le f)) (Nat.ne_of_lt hj) ih) hk hown
  obtain hle | hlt := Nat.lt_or_ge f.level k |>.symm
  · exact hlower k hle
  · have htop := readsAt_parentheses (Nat.lt_of_lt_of_le hlt hk) (hlower 0 (Nat.zero_le _))
    exact Nat.decreasingInduction' (fun j hj hkj ih =>
      readsAt_of_succ hj (Nat.ne_of_gt (Nat.lt_of_lt_of_le hlt hkj)) ih) hk htop

theorem sign_type (sign : Sign) : AssocList.lookup sign.token.type prefixOps = some sign.op := by
  cases sign <;> rfl

theorem opToken_lookup {op : BinaryOp} (h : op ≠ .pow) :
    AssocList.lookup (opToken op).type (levelOps (precedence op)) = some op := by
  cases op <;> first | exact absurd rfl h | rfl

theorem readsAt_unary (sign : Sign) {right : Formula} (ih : ReadsAt strtod 15 right) :
    ReadsAt strtod 15 (.unary sign right) := by
  intro n rest s hn hstops hs
  have htokens : (Formula.unary sign right).tokensAt 15 = sign.token :: right.tokensAt 15 :=
    tokensAt_of_le (f := .unary sign right) (Nat.le_refl 15)
  rw [htokens] at hn hs
  obtain ⟨n, rfl⟩ : ∃ m, n = m + 1 := ⟨n - 1, by rw [List.length_cons] at hn; omega⟩
  refine exprGuard_within (fun s₁ hs₁ => ?_) fun a s₁ s₂ h₁ h₂ => ⟨h₁.1, h₂.trans h₁.2⟩
  have hahead : s₁.ahead = sign.token :: (right.tokensAt 15 ++ rest) := hs₁.trans hs
  have hne {type : TokenType} (h : sign.token.type ≠ type) : s₁.peek.type ≠ type := by
    rw [peek_of_ahead hahead]
    exact h
  refine (accept_no (hne (by cases sign <;> decide))).bind fun b s' hb => ?_
  obtain ⟨rfl, rfl⟩ := hb
  refine (accept_no (hne (by cases sign <;> decide))).bind fun b s₂ hb => ?_
  obtain ⟨rfl, rfl⟩ := hb
  refine (acceptAny_yes hahead (sign_type sign) (by cases sign <;> decide)).bind fun o s₃ ho => ?_
  obtain ⟨rfl, hs₃⟩ := ho
  refine Within.bind (ih n rest s₃ (Nat.le_of_succ_le_succ hn) hstops hs₃) fun e s₄ he => ?_
  obtain ⟨rfl, hs₄⟩ := he
  exact .of_ok rfl ⟨rfl, hs₄⟩

theorem readsAt_pow {left right : Formula} (ihl : ReadsAt strtod 15 left)
    (ihr : ReadsAt strtod 14 right) :
    ReadsAt strtod 14 (.binary left .pow right) := by
  intro n rest s hn hstops hs
  have htokens : (Formula.binary left .pow right).tokensAt 14 =
      left.tokensAt 15 ++ opToken .pow :: right.tokensAt 14 :=
    tokensAt_of_le (f := .binary left .pow right) (Nat.le_refl 14)
  rw [htokens] at hn hs
  rw [List.length_append, List.length_cons] at hn
  rw [List.append_assoc] at hs
  obtain ⟨n, rfl⟩ : ∃ m, n = m + 1 := ⟨n - 1, by omega⟩
  refine exprGuard_within (fun s₁ hs₁ => ?_) fun a s₁ s₂ h₁ h₂ => ⟨h₁.1, h₂.trans h₁.2⟩
  have hstop : Stops 15 (opToken .pow :: (right.tokensAt 14 ++ rest)) :=
    stops_opToken (Nat.lt_succ_self 14) ((begins_tokensAt 14 right).append rest)
  refine Within.bind (ihl (n + 1) _ s₁ (by omega) hstop (hs₁.trans hs)) fun e s₂ he => ?_
  obtain ⟨rfl, hs₂⟩ := he
  refine (accept_yes hs₂ rfl nofun).bind fun b s₃ hb => ?_
  obtain ⟨rfl, hs₃⟩ := hb
  refine Within.bind (ihr n rest s₃ (by omega) hstops hs₃) fun e s₄ he => ?_
  obtain ⟨rfl, hs₄⟩ := he
  exact .of_ok rfl ⟨rfl, hs₄⟩

theorem chains_binary {left right : Formula} {op : BinaryOp} (hop : op ≠ .pow)
    (ihl : Chains strtod (precedence op) left) (ihr : ReadsAt strtod (precedence op + 1) right) :
    Chains strtod (precedence op) (.binary left op right) := by
  intro n rest s Q hn hstops hs hloop
  have htokens : (Formula.binary left op right).tokensAt (precedence op) =
      left.tokensAt (precedence op) ++ opToken op :: right.tokensAt (precedence op + 1) := by
    rw [tokensAt_of_le (f := .binary left op right) (Nat.le_refl (precedence op)), Formula.body,
      leftLevel, rightLevel, if_neg hop, if_neg hop]
    rfl
  rw [htokens] at hn hs
  rw [List.length_append, List.length_cons] at hn
  rw [List.append_assoc] at hs
  have hbegins := (begins_tokensAt (precedence op + 1) right).append rest
  refine ihl n _ s Q (by omega) (stops_opToken (Nat.lt_succ_self _) hbegins) hs
    fun s₁ fuel hs₁ hfuel => ?_
  obtain ⟨fuel, rfl⟩ := Nat.exists_eq_add_of_lt (Nat.lt_of_le_of_lt (Nat.zero_le _) hfuel)
  rw [Nat.zero_add] at hfuel ⊢
  rw [iterate]
  refine Within.bind (Q := fun t s' =>
    t = .next (.binary left.expr op right.expr) ∧ s'.ahead = rest) ?_ fun t s₂ ht => ?_
  · refine (acceptAny_yes hs₁ (opToken_lookup hop) (by cases op <;> rintro ⟨⟩)).bind fun o s₂ ho => ?_
    obtain ⟨rfl, hs₂⟩ := ho
    refine (checkBinopChain_within s₂).bind fun _ s₃ hs₃ => ?_
    refine Within.bind (ihr n rest s₃ (by omega) hstops (hs₃.trans hs₂)) fun e s₄ he => ?_
    obtain ⟨rfl, hs₄⟩ := he
    exact .of_ok rfl ⟨rfl, hs₄⟩
  · obtain ⟨rfl, hs₂⟩ := ht
    refine hloop s₂ fuel hs₂ ?_
    rw [List.length_cons, List.length_append] at hfuel
    omega

theorem readsAt_ternary {condition thenBranch elseBranch : Formula} (ihc : ReadsAt strtod 2 condition)
    (iht : ReadsAt strtod 1 thenBranch) (ihe : ReadsAt strtod 1 elseBranch) :
    ReadsAt strtod 1 (.ternary condition thenBranch elseBranch) := by
  intro n rest s hn hstops hs
  have htokens : (Formula.ternary condition thenBranch elseBranch).tokensAt 1 =
      condition.tokensAt 2 ++ word .question (ascii "?") :: (thenBranch.tokensAt 1 ++
        word .colon (ascii ":") :: elseBranch.tokensAt 1) :=
    tokensAt_of_le (f := .ternary condition thenBranch elseBranch) (Nat.le_refl 1)
  rw [htokens] at hn hs
  rw [List.length_append, List.length_cons, List.length_append, List.length_cons] at hn
  rw [List.append_assoc, List.cons_append, List.append_assoc, List.cons_append] at hs
  obtain ⟨n, rfl⟩ : ∃ m, n = m + 1 := ⟨n - 1, by omega⟩
  have hquestion (ts : List Token) : Stops 2 (word .question (ascii "?") :: ts) := by
    refine ⟨fun r hr => ?_, ?_⟩
    · cases hr
      exact Nat.lt_succ_self 1
    · cases ts <;> rfl
  refine Within.bind (ihc (n + 1) _ s (by omega) (hquestion _) hs) fun e s₁ he => ?_
  obtain ⟨rfl, hs₁⟩ := he
  refine (accept_yes hs₁ rfl nofun).bind fun b s₂ hb => ?_
  obtain ⟨rfl, hs₂⟩ := hb
  have hcolon := stops_of_rank (t := word .colon (ascii ":")) rfl nofun 1
  refine Within.bind (iht n _ s₂ (by omega) (hcolon _) hs₂) fun e s₃ he => ?_
  obtain ⟨rfl, hs₃⟩ := he
  refine (consume_yes hs₃ rfl nofun _).bind fun _ s₄ hs₄ => ?_
  refine Within.bind (ihe n rest s₄ (by omega) hstops hs₄.2) fun e s₅ he => ?_
  obtain ⟨rfl, hs₅⟩ := he
  exact .of_ok rfl ⟨rfl, hs₅⟩

theorem readsAt_assign (v : Variable) {value : Formula} (ih : ReadsAt strtod 0 value)
    (ihv : ReadsAt strtod 1 (.var v)) : ReadsAt strtod 0 (.assign v value) := by
  intro n rest s hn hstops hs
  have htokens : (Formula.assign v value).tokensAt 0 =
      (Formula.var v).tokensAt 1 ++ word .assign (ascii "=") :: value.tokensAt 0 := rfl
  rw [htokens] at hn hs
  rw [List.length_append, List.length_cons] at hn
  rw [List.append_assoc] at hs
  obtain ⟨n, rfl⟩ : ∃ m, n = m + 1 := ⟨n - 1, by omega⟩
  have hassign (ts : List Token) : Stops 1 (word .assign (ascii "=") :: ts) := by
    refine ⟨fun r hr => ?_, ?_⟩
    · cases hr
      exact Nat.lt_succ_self 0
    · cases ts <;> rfl
  refine Within.bind (ihv (n + 1) _ s (by omega) (hassign _) hs) fun e s₁ he => ?_
  obtain ⟨rfl, hs₁⟩ := he
  refine (acceptAny_yes hs₁ rfl nofun).bind fun o s₂ ho => ?_
  obtain ⟨rfl, hs₂⟩ := ho
  refine Within.bind (ih n rest s₂ (by omega) hstops hs₂) fun e s₃ he => ?_
  obtain ⟨rfl, hs₃⟩ := he
  exact .of_ok rfl ⟨rfl, hs₃⟩

theorem readsAt_var (v : Variable) : ReadsAt strtod 16 (.var v) := by
  intro n rest s hn hstops hs
  exact postfixExpr_stops hstops (primary_variable v hstops hs)

theorem readsAt_int (m : Literal) : ReadsAt strtod 16 (.int m) := by
  intro n rest s hn hstops hs
  exact postfixExpr_stops hstops (primary_literal m hs)

/-- Every level of the grammar reads every formula. -/
theorem readsAt (strtod : Bytes → Double) (f : Formula) :
    (∀ k ≤ 16, ReadsAt strtod k f) ∧ ∀ k, 2 ≤ k → k ≤ 13 → Chains strtod k f := by
  -- At its own level; what the other levels do follows.
  suffices hown : ReadsAt strtod f.level f ∧
      (2 ≤ f.level → f.level ≤ 13 → Chains strtod f.level f) by
    refine ⟨fun k hk => readsAt_all hown.1 hk, fun k hlow hhigh => ?_⟩
    by_cases hk : k = f.level
    · subst hk
      exact hown.2 hlow hhigh
    · exact chains_of_runs hlow hhigh hk (readsAt_all hown.1 (by omega))
  induction f with
  | var v => exact ⟨readsAt_var v, fun _ h => absurd h (by decide : ¬16 ≤ 13)⟩
  | int n => exact ⟨readsAt_int n, fun _ h => absurd h (by decide : ¬16 ≤ 13)⟩
  | unary sign right ih =>
    exact ⟨readsAt_unary sign (readsAt_all ih.1 (by decide)),
      fun _ h => absurd h (by decide : ¬15 ≤ 13)⟩
  | binary left op right ihl ihr =>
    by_cases hop : op = .pow
    · subst hop
      exact ⟨readsAt_pow (readsAt_all ihl.1 (by decide)) (readsAt_all ihr.1 (by decide)),
        fun _ h => absurd h (by decide : ¬14 ≤ 13)⟩
    · have hlow := (precedence_le op).1
      have hhigh := precedence_le_of_ne hop
      have hchain : Chains strtod (precedence op) (.binary left op right) := by
        refine chains_binary hop ?_ (readsAt_all ihr.1 (by omega))
        by_cases hk : precedence op = left.level
        · rw [hk] at hlow hhigh ⊢
          exact ihl.2 hlow hhigh
        · exact chains_of_runs hlow hhigh hk (readsAt_all ihl.1 (by omega))
      exact ⟨readsAt_of_chains hchain, fun _ _ => hchain⟩
  | ternary condition thenBranch elseBranch ihc iht ihe =>
    exact ⟨readsAt_ternary (readsAt_all ihc.1 (by decide)) (readsAt_all iht.1 (by decide))
      (readsAt_all ihe.1 (by decide)), fun h => absurd h (by decide : ¬2 ≤ 1)⟩
  | assign v value ih =>
    exact ⟨readsAt_assign v (readsAt_all ih.1 (Nat.zero_le _)) (readsAt_all (readsAt_var v) (by decide)),
      fun h => absurd h (by decide : ¬2 ≤ 0)⟩

/-! ## The file -/

/-- What the lexer puts at the end ends every expression, and the statement. -/
theorem Ending.stops {ending : List Token} (h : Ending ending) : Stops 0 ending := by
  cases h with
  | semicolon => exact stops_of_rank (t := word .semicolon [0x3B]) rfl nofun 0 _
  | eof => exact stops_of_rank (t := word .eof []) rfl nofun 0 _

theorem consumeSemi_ending {ending : List Token} (h : Ending ending) {s : Reading}
    (hs : s.ahead = ending) : Within consumeSemi s fun _ s' => s'.ahead = [word .eof []] := by
  obtain ⟨ahead, previous, scopeDepth, exprDepth, stmtDepth, binopDepth⟩ := s
  obtain rfl : ahead = ending := hs
  cases h with
  | semicolon => exact .of_ok rfl rfl
  | eof => exact .of_ok rfl rfl

/-- No keyword begins an expression. -/
theorem statementOf_begins {type : TokenType} {c : Calls}
    (h : type = .ident ∨ type ∈ [TokenType.number, .lparen, .minus, .bang, .tilde]) :
    statementOf strtod c type = expressionStatement strtod c := by
  simp only [List.mem_cons, List.not_mem_nil, or_false] at h
  obtain rfl | rfl | rfl | rfl | rfl | rfl := h <;> rfl

theorem statement_formula {f : Formula} {ending : List Token} (hending : Ending ending) {n : Nat}
    (hn : f.body.length ≤ n) {s : Reading} (hs : s.ahead = f.body ++ ending)
    (hdepth : s.stmtDepth = 0) :
    Within (statement strtod (Calls.at strtod n)) s fun x s' =>
      x = .mk 1 (.expression f.expr) ∧ s'.ahead = [word .eof []] := by
  obtain ⟨t, ts, hbody, hline, hbegins⟩ := begins_body f
  have htokens : f.tokensAt 0 = f.body := tokensAt_of_le (Nat.zero_le _)
  refine Within.bind (Q := fun _ s' => s'.ahead = s.ahead ∧ s'.stmtDepth = 1)
    (.of_ok rfl ⟨rfl, congrArg Nat.succ hdepth⟩) fun _ s₁ h₁ => ?_
  refine Finishes.gets_bind (.ite (fun h => absurd h ?_) fun _ => ?_)
  · rw [h₁.2]
    decide
  refine Finishes.gets_bind ?_
  have hahead : s₁.ahead = f.body ++ ending := h₁.1.trans hs
  have hpeek : s₁.peek = t := peek_of_ahead (hahead.trans (by rw [hbody]; rfl))
  rw [hpeek, statementOf_begins (hbegins.imp_left And.left)]
  refine Within.bind (Q := fun kind s' => kind = .expression f.expr ∧ s'.ahead = [word .eof []]) ?_
    fun kind s₂ hkind => ?_
  · refine Within.bind (Q := fun e s' => e = f.expr ∧ s'.ahead = ending)
      (expression_within (fun s' hs' => ?_) fun a s' s'' h h' => ⟨h.1, h'.trans h.2⟩)
      fun e s' he => ?_
    · exact (readsAt strtod f).1 0 (Nat.zero_le _) n ending s' (htokens ▸ hn) hending.stops
        (by rw [hs', hahead, htokens])
    · obtain ⟨rfl, hs'⟩ := he
      exact (consumeSemi_ending hending hs').bind fun _ s'' hs'' => .of_ok rfl ⟨rfl, hs''⟩
  · obtain ⟨rfl, hs₂⟩ := hkind
    refine .of_ok rfl ⟨?_, hs₂⟩
    rw [hline]

theorem skipSemicolons_none {s : Reading} (h : s.peek.type ≠ .semicolon) :
    Within skipSemicolons s fun _ s' => s' = s := by
  refine Finishes.gets_bind ?_
  rw [iterate]
  refine Within.bind (Q := fun t s' => t = .done () ∧ s' = s) ?_ fun t s' ht => ?_
  · refine (accept_no h).bind fun b s' hb => ?_
    obtain ⟨rfl, rfl⟩ := hb
    exact .of_ok rfl ⟨rfl, rfl⟩
  · obtain ⟨rfl, rfl⟩ := ht
    exact Within.of_ok rfl rfl

theorem program_formula {f : Formula} {ending : List Token} (hending : Ending ending) {n : Nat}
    (hn : f.body.length ≤ n) {s : Reading} (hs : s.ahead = f.body ++ ending)
    (hdepth : s.stmtDepth = 0) :
    Within (program strtod (Calls.at strtod n)) s fun p _ => p = [.mk 1 (.expression f.expr)] := by
  obtain ⟨t, ts, hbody, _, hbegins⟩ := begins_body f
  have hpeek : s.peek = t := peek_of_ahead (hs.trans (by rw [hbody]; rfl))
  have hne {type : TokenType} (h : type ∉ [TokenType.ident, .number, .lparen, .minus, .bang, .tilde]) :
      s.peek.type ≠ type := by
    rw [hpeek]
    rintro rfl
    exact h (List.mem_cons.mpr (hbegins.imp_left And.left))
  have hlength : 2 ≤ s.ahead.length + 1 := by
    rw [hs, hbody, List.cons_append, List.length_cons]
    omega
  obtain ⟨fuel, hfuel⟩ := Nat.exists_eq_add_of_le hlength
  refine Finishes.gets_bind ?_
  rw [hfuel, Nat.add_comm 2 fuel]
  -- The first turn reads the statement, the second one finds the end.
  rw [iterate]
  refine Within.bind (Q := fun t s' =>
    t = .next [.mk 1 (.expression f.expr)] ∧ s'.ahead = [word .eof []]) ?_ fun t s' ht => ?_
  · have hmore : (decide (s.peek.type = .eof)) = true → False := fun h =>
      hne (by decide) (of_decide_eq_true h)
    refine Finishes.gets_bind (.ite (fun h => (hmore h).elim) fun _ => ?_)
    refine (skipSemicolons_none (hne (by decide))).bind fun _ s' hs' => ?_
    subst hs'
    refine Finishes.gets_bind (.ite (fun h => (hmore h).elim) fun _ => ?_)
    refine (statement_formula hending hn hs hdepth).bind fun x s₁ hx => ?_
    obtain ⟨rfl, hs₁⟩ := hx
    exact Within.of_ok rfl ⟨rfl, hs₁⟩
  · obtain ⟨rfl, hs'⟩ := ht
    obtain ⟨ahead, previous, scopeDepth, exprDepth, stmtDepth, binopDepth⟩ := s'
    obtain rfl : ahead = [word .eof []] := hs'
    exact Within.of_ok rfl rfl

/-- The parser gives the formula back, unless it says that the nesting is too deep or the chain
too long. -/
theorem parse_print (strtod : Bytes → Double) (f : Formula) :
    ∃ tokens, scanTokens f.print = .ok tokens ∧
      match parse strtod tokens with
      | .ok program _ => program = [.mk 1 (.expression f.expr)]
      | .error e _ => e.message = tooDeep ∨ e.message = tooLong
      | .timeout => False := by
  obtain ⟨ending, hending, hscan⟩ := scanTokens_print f
  refine ⟨_, hscan, ?_⟩
  have hlength : f.body.length ≤ (f.body ++ ending).length := by
    rw [List.length_append]
    exact Nat.le_add_right _ _
  have hrun : Within (program strtod (Calls.at strtod (f.body ++ ending).length))
      ⟨f.body ++ ending, none, 0, 0, 0, 0⟩ fun p _ => p = [.mk 1 (.expression f.expr)] :=
    program_formula hending hlength rfl rfl
  unfold Within Finishes at hrun
  unfold parse
  split at hrun
  · rename_i p s' hok
    rw [hok]
    exact hrun.2
  · rename_i e s' herror
    rw [herror]
    exact hrun
  · exact hrun.elim

end ReadsAt

end Syntax

end Look
