/-
The parser ends on every list of tokens, and does not look at lines.

`Ends m s` says both of `m`, started in `s`, and `Eats m s` also that a token is read.  The
functions that are called again have to be good for fewer tokens than there are, since a token
is read before they are called; so the functions of `Calls.at n` are good for fewer than `n`
tokens (`calls_blind`), and as many as there are tokens is enough for all of them
(`parse_ne_timeout`).  The tree of a list of tokens with other lines is the same tree with other
lines (`parse_shadow`).
-/
import Look.Syntax.Unplaced

namespace Look

namespace Syntax

open Exec

/-- No token comes back. -/
def shrinks : Moves Reading ParseError where
  rel s s' := s'.ahead.length ≤ s.ahead.length
  err _ _ _ := True
  refl _ := Nat.le_refl _
  trans h h' := Nat.le_trans h' h
  absorb _ _ := trivial

section

variable {α β : Type} [Shadow α] [Shadow β]

abbrev Blind (m m' : Parser α) (s : Reading) (Q : α → Reading → Prop) : Prop :=
  Mirrors shrinks m m' s Q

/-- `m`, started in `s`, ends. -/
abbrev Ends (m m' : Parser α) (s : Reading) : Prop := Blind m m' s fun _ _ => True

/-- `m`, started in `s`, ends, and it reads a token. -/
abbrev Eats (m m' : Parser α) (s : Reading) : Prop :=
  Blind m m' s fun _ s' => s'.ahead.length < s.ahead.length

variable {m m' : Parser α} {s : Reading} {Q : α → Reading → Prop}

theorem Blind.ends (h : Blind m m' s Q) : Ends m m' s := h.mono fun _ _ _ _ => trivial

theorem Blind.bind {f f' : α → Parser β} {Q' : β → Reading → Prop} (hm : Blind m m' s Q)
    (hf : ∀ a s', s'.ahead.length ≤ s.ahead.length → Q a s' → Blind (f a) (f' (shadow a)) s' Q') :
    Blind (m >>= f) (m' >>= f') s Q' :=
  Mirrors.bind hm hf

/-- A condition that has been read before. -/
theorem Blind.ite {b : Bool} {n n' : Parser α} (h : b = true → Blind m m' s Q)
    (h' : b = false → Blind n n' s Q) :
    Blind (if b = true then m else n) (if shadow b = true then m' else n') s Q :=
  Mirrors.ite Iff.rfl h fun hb => h' (Bool.eq_false_iff.mpr hb)

/-- A turn that began with `k` tokens. -/
def Turns (k : Nat) (Q : β → Reading → Prop) : Turn α β → Reading → Prop
  | .next _, s => s.ahead.length < k
  | .done b, s => Q b s

theorem next_blind {k : Nat} {Q : β → Reading → Prop} {a a' : α} (ha : shadow a = a')
    (h : s.ahead.length < k) : Blind (pure (Turn.next a)) (pure (Turn.next a')) s (Turns k Q) :=
  .pure (congrArg Turn.next ha) h

theorem done_blind {k : Nat} {Q : β → Reading → Prop} {b b' : β} (hb : shadow b = b')
    (h : Q b s) : Blind (pure (Turn.done b)) (pure (Turn.done b')) s (Turns (α := α) k Q) :=
  .pure (congrArg Turn.done hb) h

theorem loop_blind {step step' : α → Parser (Turn α β)} {a a' : α} {Q : β → Reading → Prop}
    (ha : shadow a = a')
    (hstep : ∀ a s', s'.ahead.length ≤ s.ahead.length →
      Blind (step a) (step' (shadow a)) s' (Turns s'.ahead.length Q)) :
    Blind (loop step a) (loop step' a') s Q := by
  subst ha
  have hlength : (shadow s).ahead.length = s.ahead.length := List.length_map _
  refine Mirrors.gets_bind hlength ?_
  refine Mirrors.iterate (fun s => s.ahead.length) (fun _ s' => s'.ahead.length ≤ s.ahead.length)
    (fun a s' hs' => (hstep a s' hs').mono fun t s'' hle ht => ?_) (Nat.le_refl _)
    (Nat.lt_succ_self _)
  cases t with
  | next a => exact ⟨ht, Nat.le_trans hle hs'⟩
  | done b => exact ht

/-- A turn that is the last one if `cond` says so. -/
theorem stop_blind {cond : Parser Bool} {rest rest' : Parser (Turn α β)} {b b' : β} {k : Nat}
    (hcond : Ends cond cond s) (hb : shadow b = b')
    (hrest : ∀ s', s'.ahead.length ≤ s.ahead.length →
      Blind rest rest' s' (Turns k fun _ _ => True)) :
    Blind (do if ← cond then pure (.done b) else rest)
      (do if ← cond then pure (.done b') else rest') s (Turns k fun _ _ => True) :=
  hcond.bind fun _ s' hs' _ => .ite (fun _ => done_blind hb trivial) fun _ => hrest s' hs'

/-! ## Reading tokens -/

@[simp] theorem text_shadow (t : Token) : text (shadow t) = text t := rfl

@[simp] theorem names_shadow (ps : Parameters) : (shadow ps).names = ps.names := rfl

@[simp] theorem defaults_shadow (ps : Parameters) : (shadow ps).defaults = shadow ps.defaults := rfl

@[simp] theorem variadic_shadow (ps : Parameters) : (shadow ps).variadic = ps.variadic := rfl

theorem peek_shadow (s : Reading) : (shadow s).peek = shadow s.peek := by
  obtain ⟨_ | ⟨t, ahead⟩, previous⟩ := s <;> rfl

theorem advance_shadow (s : Reading) : (shadow s).advance = shadow s.advance := by
  have htype : (shadow s).peek.type = s.peek.type := by
    rw [peek_shadow]
    rfl
  unfold Reading.advance
  rw [htype]
  split
  · rfl
  · obtain ⟨_ | ⟨t, ahead⟩, previous⟩ := s <;> rfl

theorem length_advance (s : Reading) : s.advance.ahead.length ≤ s.ahead.length := by
  unfold Reading.advance
  split
  · exact Nat.le_refl _
  · exact Nat.le_trans (Nat.le_of_eq List.length_drop) (Nat.sub_le _ _)

theorem length_advance_lt {s : Reading} (h : s.peek.type ≠ .eof) :
    s.advance.ahead.length < s.ahead.length := by
  rw [Reading.advance, if_neg h]
  obtain ⟨_ | ⟨t, ahead⟩, previous⟩ := s
  · exact absurd rfl h
  · exact Nat.lt_succ_self _

theorem peek_blind (s : Reading) : Blind peek peek s fun t s' => t = s.peek ∧ s' = s :=
  .gets (peek_shadow s) ⟨rfl, rfl⟩

theorem isAtEnd_blind (s : Reading) : Ends isAtEnd isAtEnd s :=
  .gets (by rw [peek_shadow]; rfl) trivial

theorem check_blind (type : TokenType) (s : Reading) :
    Blind (check type) (check type) s
      fun b s' => s' = s ∧ (b → s.peek.type = type ∧ type ≠ .eof) := by
  refine .gets ?_ ⟨rfl, fun hb => ?_⟩
  · rw [peek_shadow]
    rfl
  · obtain ⟨heof, htype⟩ := of_decide_eq_true hb
    exact ⟨htype, htype ▸ heof⟩

theorem atBrace_blind (s : Reading) :
    Blind atBrace atBrace s fun _ s' => s' = s := by
  refine (check_blind .rbrace s).bind fun b s' _ hb => ?_
  obtain ⟨rfl, _⟩ := hb
  exact .ite (fun _ => .pure rfl rfl) fun _ => .gets (by rw [peek_shadow]; rfl) rfl

theorem advance_blind (s : Reading) : Blind advance advance s fun _ s' => s' = s.advance :=
  .modify (advance_shadow s) (length_advance s) rfl

theorem advance_eats (h : s.peek.type ≠ .eof) : Eats advance advance s :=
  (advance_blind s).mono fun _ _ _ hs' => hs' ▸ length_advance_lt h

theorem accept_blind (type : TokenType) (s : Reading) :
    Blind (accept type) (accept type) s fun b s' => b → s'.ahead.length < s.ahead.length := by
  refine (check_blind type s).bind fun b s' _ hb => ?_
  obtain ⟨rfl, hb⟩ := hb
  refine .ite (fun hyes => ?_) fun _ => .pure rfl nofun
  obtain ⟨htype, heof⟩ := hb hyes
  exact (advance_eats (htype ▸ heof)).bind fun _ s'' _ hless => .pure rfl fun _ => hless

theorem acceptAny_blind {table : List (TokenType × β)} (hshadow : ∀ b : β, shadow b = b)
    (heof : AssocList.lookup .eof table = none) (s : Reading) :
    Blind (acceptAny table) (acceptAny table) s fun o s' =>
      o.isSome → s'.ahead.length < s.ahead.length := by
  have hsame (o : Option β) : shadow o = o := by
    cases o with
    | none => rfl
    | some b => exact congrArg some (hshadow b)
  refine Mirrors.gets_bind ?_ ?_
  · rw [peek_shadow, hsame]
    rfl
  · rw [hsame]
    cases hlookup : AssocList.lookup s.peek.type table with
    | none => exact .pure rfl nofun
    | some b =>
      have hne : s.peek.type ≠ .eof := by
        intro htype
        rw [htype, heof] at hlookup
        cases hlookup
      exact (advance_eats hne).bind fun _ s' _ hless => .pure (hsame _) fun _ => hless

theorem fail_blind (message : Bytes) : Blind (fail message) (fail message) s Q :=
  ⟨trivial, by
    unfold fail
    rw [peek_shadow]
    rfl⟩

theorem failGot_blind (message : Bytes) : Blind (failGot message) (failGot message) s Q :=
  ⟨trivial, by
    unfold failGot
    rw [peek_shadow]
    rfl⟩

theorem consume_blind (type : TokenType) (message : Bytes) (s : Reading) :
    Eats (consume type message) (consume type message) s := by
  refine (check_blind type s).bind fun b s' _ hb => ?_
  obtain ⟨rfl, hb⟩ := hb
  refine .ite (fun hyes => ?_) fun _ => failGot_blind message
  obtain ⟨htype, heof⟩ := hb hyes
  refine (peek_blind s').bind fun t s'' _ ht => ?_
  obtain ⟨rfl, rfl⟩ := ht
  exact (advance_eats (htype ▸ heof)).bind fun _ s₁ _ hless => .pure rfl hless

theorem consumeSemi_ends (s : Reading) : Ends consumeSemi consumeSemi s := by
  refine (check_blind .semicolon s).bind fun _ s _ _ => .ite (fun _ => ?_) fun _ => ?_
  · exact (advance_blind s).ends
  · exact (atBrace_blind s).bind fun _ s _ _ => .ite (fun _ => .pure rfl trivial) fun _ =>
      failGot_blind _

theorem skipSemicolons_ends (s : Reading) : Ends skipSemicolons skipSemicolons s := by
  refine loop_blind rfl fun _ s' _ => ?_
  exact (accept_blind .semicolon s').bind fun _ s'' _ hless =>
    .ite (fun hyes => .pure rfl (hless hyes)) fun _ => .pure rfl trivial

theorem behind_ends {m m' : Parser α} (type : TokenType) (s : Reading)
    (hm : ∀ s', s'.ahead.length < s.ahead.length → Ends m m' s') :
    Ends (behind type m) (behind type m') s := by
  refine (accept_blind type s).bind fun b s' _ hless =>
    .ite (fun hyes => ?_) fun _ => .pure rfl trivial
  exact (hm s' (hless hyes)).bind fun _ _ _ _ => .pure rfl trivial

theorem before_ends {m m' : Parser α} (type : TokenType) (hm : Ends m m' s) :
    Ends (before type m) (before type m') s := by
  refine (check_blind type s).bind fun b s' _ hb => ?_
  obtain ⟨rfl, _⟩ := hb
  exact .ite (fun _ => .pure rfl trivial) fun _ => hm.bind fun _ _ _ _ => .pure rfl trivial

theorem literal_ends (t : Token) (s : Reading) : Ends (literal t) (literal (shadow t)) s := by
  obtain ⟨type, lexeme, _ | l, line, raw⟩ := t
  · exact ⟨trivial, rfl⟩
  · exact ⟨⟨Nat.le_refl _, trivial⟩, congrArg (Res.ok · (shadow s)) (shadow_bytes l).symm⟩

end

/-! ## The functions that are called again -/

/-- The functions are good for fewer than `n` tokens. -/
structure Calls.Ready (c : Calls) (n : Nat) : Prop where
  statement : ∀ s, s.ahead.length < n → Eats c.statement c.statement s
  ifStatement : ∀ s, s.ahead.length < n → Ends c.ifStatement c.ifStatement s
  expression : ∀ s, s.ahead.length < n → Eats c.expression c.expression s
  assignment : ∀ s, s.ahead.length < n → Eats c.assignment c.assignment s
  ternary : ∀ s, s.ahead.length < n → Eats c.ternary c.ternary s
  power : ∀ s, s.ahead.length < n → Eats c.power c.power s
  unary : ∀ s, s.ahead.length < n → Eats c.unary c.unary s

section Grammar

variable {strtod : Bytes → Double} {c : Calls} {n : Nat} {s : Reading}

theorem block_ends (hc : c.Ready n) (hs : s.ahead.length < n) : Ends (block c) (block c) s := by
  refine (loop_blind (Q := fun _ _ => True) rfl fun statements s' hs' => ?_).bind
    fun statements s' _ _ => ?_
  · refine stop_blind (atBrace_blind s').ends rfl fun s₂ h₂ => ?_
    refine (skipSemicolons_ends s₂).bind fun _ s₃ h₃ _ => ?_
    refine stop_blind (atBrace_blind s₃).ends rfl fun s₅ h₅ => ?_
    refine (hc.statement s₅ (by omega)).bind
      fun statement s₆ _ h₆ => next_blind (by simp) (by omega)
  · exact (consume_blind _ _ s').bind fun _ _ _ _ => .pure rfl trivial

theorem functionBody_ends (hc : c.Ready n) (hs : s.ahead.length < n) :
    Ends (functionBody c) (functionBody c) s := by
  refine Blind.bind (.modify (Q := fun _ s' => s'.ahead = s.ahead) rfl (Nat.le_refl _) rfl)
    fun _ s' h' _ => ?_
  refine (block_ends hc (by omega)).bind fun body s₁ _ _ => ?_
  exact Blind.bind (.modify (Q := fun _ _ => True) rfl (Nat.le_refl _) trivial) fun _ _ _ _ =>
    .pure rfl trivial

/-! ## Primary expressions -/

theorem expressions_ends (hc : c.Ready n) (hs : s.ahead.length < n) :
    Ends (expressions c) (expressions c) s := by
  refine loop_blind rfl fun es s' hs' => ?_
  refine (hc.expression s' (by omega)).bind fun e s₁ _ h₁ => ?_
  exact (accept_blind .comma s₁).bind fun _ s₂ h₂ _ =>
    .ite (fun _ => next_blind (by simp) (by omega)) fun _ => done_blind (by simp) trivial

theorem argumentList_ends (hc : c.Ready n) (hs : s.ahead.length < n) :
    Ends (argumentList c) (argumentList c) s := by
  refine (check_blind .rparen s).bind fun _ s' h' _ => .ite (fun _ => .pure rfl trivial) fun _ => ?_
  exact expressions_ends hc (by omega)

theorem parameters_ends (hc : c.Ready n) (hs : s.ahead.length < n) :
    Ends (parameters c) (parameters c) s := by
  refine (check_blind .rparen s).bind fun _ s' h' _ => .ite (fun _ => .pure rfl trivial) fun _ => ?_
  refine loop_blind rfl fun ps s₁ h₁ => ?_
  refine (accept_blind .ellipsis s₁).bind fun _ s₂ h₂ _ => .ite (fun _ => ?_) fun _ => ?_
  · refine (consume_blind .ident _ s₂).bind fun p s₃ _ _ => done_blind ?_ trivial
    exact congrArg (Parameters.mk _ · true) (shadow_append ps.defaults [none])
  · refine (consume_blind .ident _ s₂).bind fun p s₃ _ h₃ => ?_
    refine (behind_ends .assign s₃ fun s' hs' => (hc.assignment s' (by omega)).ends).bind
      fun value s₄ h₄ _ => ?_
    have hps : shadow (⟨ps.names ++ [text p], ps.defaults ++ [value], false⟩ : Parameters) =
        ⟨ps.names ++ [text p], shadow ps.defaults ++ [shadow value], false⟩ :=
      congrArg (Parameters.mk _ · false) (shadow_append ps.defaults [value])
    exact (accept_blind .comma s₄).bind fun _ s₅ h₅ _ =>
      .ite (fun _ => next_blind hps (by omega)) fun _ => done_blind hps trivial

theorem captureNames_ends (s : Reading) : Ends captureNames captureNames s := by
  refine (check_blind .rparen s).bind fun _ s' _ _ => .ite (fun _ => .pure rfl trivial) fun _ => ?_
  refine loop_blind rfl fun names s₁ _ => ?_
  refine (consume_blind .ident _ s₁).bind fun p s₂ _ h₂ => ?_
  have hnames : shadow (names ++ [text p]) = shadow names ++ [text p] := shadow_append _ _
  exact (accept_blind .comma s₂).bind fun _ s₃ h₃ _ =>
    .ite (fun _ => next_blind hnames (by omega)) fun _ => done_blind hnames trivial

theorem captures_ends (s : Reading) : Ends captures captures s := by
  refine (accept_blind .use s).bind fun _ s _ _ => .ite (fun _ => ?_) fun _ => .pure rfl trivial
  refine (consume_blind .lparen _ s).bind fun _ s _ _ => ?_
  refine (captureNames_ends s).bind fun names s _ _ => ?_
  exact (consume_blind .rparen _ s).bind fun _ s _ _ => .pure rfl trivial

theorem functionExpression_ends (hc : c.Ready n) (hs : s.ahead.length < n) :
    Ends (functionExpression c) (functionExpression c) s := by
  refine (consume_blind .lparen _ s).bind fun _ s₁ h₁ _ => ?_
  refine (parameters_ends hc (by omega)).bind fun ps s₂ h₂ _ => ?_
  refine (consume_blind .rparen _ s₂).bind fun _ s₃ h₃ _ => ?_
  refine (captures_ends s₃).bind fun names s₄ h₄ _ => ?_
  refine (accept_blind .fatArrow s₄).bind fun _ s₅ h₅ _ => .ite (fun _ => ?_) fun _ => ?_
  · exact (hc.expression s₅ (by omega)).bind fun e s₆ _ _ => .pure (by simp) trivial
  · refine (consume_blind .lbrace _ s₅).bind fun _ s₆ h₆ _ => ?_
    exact (functionBody_ends hc (by omega)).bind fun body s₇ _ _ => .pure (by simp) trivial

theorem arrayLiteral_ends (hc : c.Ready n) (hs : s.ahead.length < n) :
    Ends (arrayLiteral c) (arrayLiteral c) s := by
  refine (accept_blind .rbracket s).bind fun _ s₁ h₁ _ =>
    .ite (fun _ => .pure rfl trivial) fun _ => ?_
  refine (hc.expression s₁ (by omega)).bind fun first s₂ _ h₂ => ?_
  refine (accept_blind .fatArrow s₂).bind fun _ s₃ h₃ _ => .ite (fun _ => ?_) fun _ => ?_
  · refine (hc.expression s₃ (by omega)).bind fun value s₄ _ h₄ => ?_
    refine (loop_blind (Q := fun _ _ => True) rfl fun pairs s₅ h₅ => ?_).bind fun pairs s₅ _ _ => ?_
    · refine (accept_blind .comma s₅).bind fun _ s₆ h₆ _ =>
        .ite (fun _ => ?_) fun _ => done_blind rfl trivial
      refine stop_blind (check_blind .rbracket s₆).ends rfl fun s₇ h₇ => ?_
      refine (hc.expression s₇ (by omega)).bind fun k s₈ _ h₈ => ?_
      refine (consume_blind .fatArrow _ s₈).bind fun _ s₉ h₉ _ => ?_
      exact (hc.expression s₉ (by omega)).bind fun v s₁₀ h₁₀ _ => next_blind (by simp) (by omega)
    · exact (consume_blind .rbracket _ s₅).bind fun _ _ _ _ => .pure (by simp) trivial
  · refine (loop_blind (Q := fun _ _ => True) rfl fun elements s₄ h₄ => ?_).bind
      fun elements s₄ _ _ => ?_
    · refine (accept_blind .comma s₄).bind fun _ s₅ h₅ _ =>
        .ite (fun _ => ?_) fun _ => done_blind rfl trivial
      refine stop_blind (check_blind .rbracket s₅).ends rfl fun s₆ h₆ => ?_
      exact (hc.expression s₆ (by omega)).bind fun e s₇ _ h₇ => next_blind (by simp) (by omega)
    · exact (consume_blind .rbracket _ s₄).bind fun _ _ _ _ => .pure (by simp) trivial

theorem structLiteral_ends (name : String) (hc : c.Ready n) (hs : s.ahead.length < n) :
    Ends (structLiteral c name) (structLiteral c name) s := by
  refine (loop_blind (Q := fun _ _ => True) rfl fun fields s' hs' => ?_).bind
    fun fields s' _ _ => ?_
  · refine stop_blind (atBrace_blind s').ends rfl fun s₂ h₂ => ?_
    refine (consume_blind .ident _ s₂).bind fun f s₃ _ h₃ => ?_
    refine (consume_blind .colon _ s₃).bind fun _ s₄ h₄ _ => ?_
    refine (hc.expression s₄ (by omega)).bind fun e s₅ h₅ _ => ?_
    exact (accept_blind .comma s₅).bind fun _ s₆ h₆ _ => next_blind (by simp) (by omega)
  · exact (consume_blind .rbrace _ s').bind fun _ _ _ _ => .pure (by simp) trivial

theorem named_ends (t : Token) (hc : c.Ready n) (hs : s.ahead.length < n) :
    Ends (named c t) (named c (shadow t)) s := by
  refine (check_blind .lbrace s).bind fun b s₁ h₁ _ => ?_
  refine Blind.ite (b := isBare t && b) (fun _ => ?_) fun _ => ?_
  · refine (advance_blind s₁).bind fun _ s₂ h₂ _ => ?_
    exact structLiteral_ends (text t) hc (by omega)
  · refine (accept_blind .colonColon s₁).bind fun _ s₂ _ _ =>
      .ite (fun _ => ?_) fun _ => .pure rfl trivial
    exact (consume_blind .ident _ s₂).bind fun m s₃ _ _ => .pure rfl trivial

theorem numberLiteral_ends (t : Token) (s : Reading) :
    Ends (numberLiteral strtod t) (numberLiteral strtod (shadow t)) s := by
  refine (literal_ends t s).bind fun lit s' _ _ => ?_
  rw [shadow_bytes]
  split
  · exact .pure rfl trivial
  · exact .pure rfl trivial

theorem primary_eats (hc : c.Ready n) (hs : s.ahead.length ≤ n) :
    Eats (primary strtod c) (primary strtod c) s := by
  refine (peek_blind s).bind fun t s' _ ht => ?_
  obtain ⟨ht, rfl⟩ := ht
  -- Behind the token there are fewer than before.
  have hrest {m m' : Parser Expr} (hne : t.type ≠ .eof)
      (hm : ∀ s, s.ahead.length < s'.ahead.length → Ends m m' s) :
      Eats (advance >>= fun _ => m) (advance >>= fun _ => m') s' := by
    refine (advance_eats (ht ▸ hne)).bind fun _ s h hless => ?_
    exact (hm s hless).mono fun _ s'' hle _ => Nat.lt_of_le_of_lt hle hless
  clear ht
  obtain ⟨type, lexeme, lit, line, raw⟩ := t
  cases type
  case iota => exact hrest nofun fun s _ => .pure rfl trivial
  case true => exact hrest nofun fun s _ => .pure rfl trivial
  case false => exact hrest nofun fun s _ => .pure rfl trivial
  case null => exact hrest nofun fun s _ => .pure rfl trivial
  case number => exact hrest nofun fun s _ => numberLiteral_ends _ s
  case floatNum =>
    refine hrest nofun fun s _ => (literal_ends _ s).bind fun lit s _ _ => .pure ?_ trivial
    rw [shadow_bytes]
    rfl
  case string =>
    refine hrest nofun fun s _ => (literal_ends _ s).bind fun lit s _ _ => .pure ?_ trivial
    rw [shadow_bytes]
    rfl
  case function => exact hrest nofun fun s h => functionExpression_ends hc (by omega)
  case lbracket => exact hrest nofun fun s h => arrayLiteral_ends hc (by omega)
  case ident => exact hrest nofun fun s h => named_ends _ hc (by omega)
  case lparen =>
    refine hrest nofun fun s h => (hc.expression s (by omega)).bind fun e s _ _ => ?_
    exact (consume_blind .rparen _ s).bind fun _ s _ _ => .pure rfl trivial
  all_goals exact fail_blind _

/-! ## Postfix and prefix operators -/

theorem memberAhead_shadow (ahead : List Token) :
    memberAhead (shadow ahead) = memberAhead ahead := by
  obtain _ | ⟨dot, _ | ⟨name, _ | ⟨t, rest⟩⟩⟩ := ahead <;> rfl

theorem isContainer_shadow (e : Expr) : isContainer (shadow e) = isContainer e := by
  cases e <;> rfl

theorem callStep_turns (e : Expr) (hc : c.Ready n) (hs : s.ahead.length ≤ n) :
    Blind (callStep c e) (callStep c (shadow e)) s (Turns s.ahead.length fun _ _ => True) := by
  refine (accept_blind .lparen s).bind fun _ s₁ h₁ hless => .ite (fun hyes => ?_) fun _ => ?_
  · have hless := hless hyes
    refine Blind.bind (Q := fun _ _ => True) ?_ fun e s₂ h₂ _ => next_blind rfl (by omega)
    refine (argumentList_ends hc (by omega)).bind fun es s₂ h₂ _ => ?_
    exact (consume_blind .rparen _ s₂).bind fun _ _ _ _ => .pure (by simp) trivial
  refine (accept_blind .lbracket s₁).bind fun _ s₂ h₂ hless => .ite (fun hyes => ?_) fun _ => ?_
  · have hless := hless hyes
    refine (hc.expression s₂ (by omega)).bind fun key s₃ h₃ _ => ?_
    exact (consume_blind .rbracket _ s₃).bind fun _ s₄ h₄ _ => next_blind (by simp) (by omega)
  refine Mirrors.gets_bind (memberAhead_shadow _) ?_
  rw [isContainer_shadow]
  refine Blind.ite (b := memberAhead s₂.ahead && isContainer e) (fun _ => ?_)
    fun _ => done_blind rfl trivial
  refine (advance_blind s₂).bind fun _ s₃ h₃ _ => ?_
  exact (consume_blind .ident _ s₃).bind fun field s₄ h₄ _ => next_blind (by simp) (by omega)

theorem call_eats (hc : c.Ready n) (hs : s.ahead.length ≤ n) :
    Eats (call strtod c) (call strtod c) s := by
  refine (primary_eats hc hs).bind fun e s' _ hless => ?_
  have hloop : Ends (loop (callStep c) e) (loop (callStep c) (shadow e)) s' :=
    loop_blind rfl fun e s₁ h₁ => callStep_turns e hc (by omega)
  exact hloop.mono fun _ s₁ h₁ _ => Nat.lt_of_le_of_lt h₁ hless

theorem postfixExpr_eats (hc : c.Ready n) (hs : s.ahead.length ≤ n) :
    Eats (postfixExpr strtod c) (postfixExpr strtod c) s := by
  refine (call_eats hc hs).bind fun e s₁ _ h₁ => ?_
  refine (accept_blind .plusPlus s₁).bind fun _ s₂ h₂ _ =>
    .ite (fun _ => .pure (by simp) (by omega)) fun _ => ?_
  exact (accept_blind .minusMinus s₂).bind fun _ s₃ h₃ _ =>
    .ite (fun _ => .pure (by simp) (by omega)) fun _ => .pure rfl (by omega)

theorem exprGuard_eats {α : Type} [Shadow α] {m m' : Parser α}
    (hm : ∀ s', s'.ahead.length = s.ahead.length → Eats m m' s') :
    Eats (exprGuard m) (exprGuard m') s := by
  refine Blind.bind (.modify (Q := fun _ s' => s'.ahead.length = s.ahead.length) rfl
    (Nat.le_refl _) rfl) fun _ s' _ h' => ?_
  refine Mirrors.gets_bind rfl (Mirrors.ite Iff.rfl (fun _ => fail_blind _) fun _ => ?_)
  refine (hm s' h').bind fun a s'' _ hless => ?_
  exact Blind.bind (.modify (Q := fun _ s₁ => s₁.ahead = s''.ahead) rfl (Nat.le_refl _) rfl)
    fun _ s₁ h₁ _ => .pure rfl (by omega)

theorem unary_eats (hc : c.Ready n) (hs : s.ahead.length ≤ n) :
    Eats (unary strtod c) (unary strtod c) s := by
  refine exprGuard_eats fun s' hs' => ?_
  refine (accept_blind .plusPlus s').bind fun _ s₁ h₁ _ => .ite (fun _ => ?_) fun _ => ?_
  · exact (primary_eats hc (by omega)).bind fun e s₂ h₂ _ => .pure (by simp) (by omega)
  refine (accept_blind .minusMinus s₁).bind fun _ s₂ h₂ _ => .ite (fun _ => ?_) fun _ => ?_
  · exact (primary_eats hc (by omega)).bind fun e s₃ h₃ _ => .pure (by simp) (by omega)
  refine (acceptAny_blind (fun _ => rfl) rfl s₂).bind fun o s₃ h₃ hless => ?_
  cases o with
  | some op =>
    have hless := hless rfl
    exact (hc.unary s₃ (by omega)).bind fun e s₄ h₄ _ => .pure (by simp) (by omega)
  | none => exact (postfixExpr_eats hc (by omega)).mono fun _ _ _ _ => by omega

/-! ## Binary operators -/

theorem power_eats (hc : c.Ready n) (hs : s.ahead.length ≤ n) :
    Eats (power strtod c) (power strtod c) s := by
  refine exprGuard_eats fun s' hs' => ?_
  refine (unary_eats hc (by omega)).bind fun e s₁ _ h₁ => ?_
  refine (accept_blind .starStar s₁).bind fun _ s₂ h₂ _ =>
    .ite (fun _ => ?_) fun _ => .pure rfl (by omega)
  exact (hc.power s₂ (by omega)).bind fun right s₃ h₃ _ => .pure (by simp) (by omega)

theorem checkBinopChain_ends (s : Reading) : Ends checkBinopChain checkBinopChain s := by
  refine Blind.bind (.modify (Q := fun _ _ => True) rfl (Nat.le_refl _) trivial) fun _ s' _ _ => ?_
  exact Mirrors.gets_bind rfl (Mirrors.ite Iff.rfl (fun _ => fail_blind _)
    fun _ => .pure rfl trivial)

theorem binaryLevel_eats {ops : List (TokenType × BinaryOp)} {operand : Parser Expr}
    (heof : AssocList.lookup .eof ops = none)
    (hoperand : ∀ s', s'.ahead.length ≤ s.ahead.length → Eats operand operand s') :
    Eats (binaryLevel ops operand) (binaryLevel ops operand) s := by
  refine (hoperand s (Nat.le_refl _)).bind fun e s' _ hless => ?_
  refine Mirrors.mono (Q := fun _ _ => True) (loop_blind rfl fun e s₁ h₁ => ?_) fun _ s₁ h₁ _ =>
    Nat.lt_of_le_of_lt h₁ hless
  refine (acceptAny_blind (fun _ => rfl) heof s₁).bind fun o s₂ h₂ hread => ?_
  cases o with
  | some op =>
    have hread := hread rfl
    refine (checkBinopChain_ends s₂).bind fun _ s₃ h₃ _ => ?_
    exact (hoperand s₃ (by omega)).bind fun right s₄ h₄ _ => next_blind (by simp) (by omega)
  | none => exact done_blind rfl trivial

theorem multiplication_eats (hc : c.Ready n) (hs : s.ahead.length ≤ n) :
    Eats (multiplication strtod c) (multiplication strtod c) s :=
  binaryLevel_eats rfl fun _ h => power_eats hc (Nat.le_trans h hs)

theorem addition_eats (hc : c.Ready n) (hs : s.ahead.length ≤ n) :
    Eats (addition strtod c) (addition strtod c) s :=
  binaryLevel_eats rfl fun _ h => multiplication_eats hc (Nat.le_trans h hs)

theorem concatenation_eats (hc : c.Ready n) (hs : s.ahead.length ≤ n) :
    Eats (concatenation strtod c) (concatenation strtod c) s :=
  binaryLevel_eats rfl fun _ h => addition_eats hc (Nat.le_trans h hs)

theorem shift_eats (hc : c.Ready n) (hs : s.ahead.length ≤ n) :
    Eats (shift strtod c) (shift strtod c) s :=
  binaryLevel_eats rfl fun _ h => concatenation_eats hc (Nat.le_trans h hs)

theorem comparison_eats (hc : c.Ready n) (hs : s.ahead.length ≤ n) :
    Eats (comparison strtod c) (comparison strtod c) s :=
  binaryLevel_eats rfl fun _ h => shift_eats hc (Nat.le_trans h hs)

theorem equality_eats (hc : c.Ready n) (hs : s.ahead.length ≤ n) :
    Eats (equality strtod c) (equality strtod c) s :=
  binaryLevel_eats rfl fun _ h => comparison_eats hc (Nat.le_trans h hs)

theorem bitwiseAnd_eats (hc : c.Ready n) (hs : s.ahead.length ≤ n) :
    Eats (bitwiseAnd strtod c) (bitwiseAnd strtod c) s :=
  binaryLevel_eats rfl fun _ h => equality_eats hc (Nat.le_trans h hs)

theorem bitwiseXor_eats (hc : c.Ready n) (hs : s.ahead.length ≤ n) :
    Eats (bitwiseXor strtod c) (bitwiseXor strtod c) s :=
  binaryLevel_eats rfl fun _ h => bitwiseAnd_eats hc (Nat.le_trans h hs)

theorem bitwiseOr_eats (hc : c.Ready n) (hs : s.ahead.length ≤ n) :
    Eats (bitwiseOr strtod c) (bitwiseOr strtod c) s :=
  binaryLevel_eats rfl fun _ h => bitwiseXor_eats hc (Nat.le_trans h hs)

theorem logicalAnd_eats (hc : c.Ready n) (hs : s.ahead.length ≤ n) :
    Eats (logicalAnd strtod c) (logicalAnd strtod c) s :=
  binaryLevel_eats rfl fun _ h => bitwiseOr_eats hc (Nat.le_trans h hs)

theorem logicalOr_eats (hc : c.Ready n) (hs : s.ahead.length ≤ n) :
    Eats (logicalOr strtod c) (logicalOr strtod c) s :=
  binaryLevel_eats rfl fun _ h => logicalAnd_eats hc (Nat.le_trans h hs)

theorem nullCoalescing_eats (hc : c.Ready n) (hs : s.ahead.length ≤ n) :
    Eats (nullCoalescing strtod c) (nullCoalescing strtod c) s :=
  binaryLevel_eats rfl fun _ h => logicalOr_eats hc (Nat.le_trans h hs)

/-! ## Ternary and assignment -/

theorem ternary_eats (hc : c.Ready n) (hs : s.ahead.length ≤ n) :
    Eats (ternary strtod c) (ternary strtod c) s := by
  refine (nullCoalescing_eats hc hs).bind fun cond s₁ _ h₁ => ?_
  refine (accept_blind .question s₁).bind fun _ s₂ h₂ _ =>
    .ite (fun _ => ?_) fun _ => .pure rfl (by omega)
  refine (hc.ternary s₂ (by omega)).bind fun thenExpr s₃ h₃ _ => ?_
  refine (consume_blind .colon _ s₃).bind fun _ s₄ h₄ _ => ?_
  exact (hc.ternary s₄ (by omega)).bind fun elseExpr s₅ h₅ _ => .pure (by simp) (by omega)

theorem assignElement_shadow (object key : Expr) (op : AssignOp) (value : Expr) :
    shadow (assignElement object key op value) =
      assignElement (shadow object) (shadow key) op (shadow value) := by
  cases object <;> simp [assignElement]

theorem assignTo_ends (target : Expr) (op : AssignOp) (value : Expr) (s : Reading) :
    Ends (assignTo target op value) (assignTo (shadow target) op (shadow value)) s := by
  cases target
  case index object key => exact .pure (assignElement_shadow object key op value) trivial
  case member object field =>
    exact .pure (assignElement_shadow object (.stringLit field false) op value) trivial
  case var name => exact .pure (by simp) trivial
  all_goals
    refine ⟨trivial, ?_⟩
    obtain ⟨ahead, _ | t⟩ := s <;> rfl

theorem assignment_eats (hc : c.Ready n) (hs : s.ahead.length ≤ n) :
    Eats (assignment strtod c) (assignment strtod c) s := by
  refine (ternary_eats hc hs).bind fun e s₁ _ h₁ => ?_
  refine (acceptAny_blind (fun _ => rfl) rfl s₁).bind fun o s₂ h₂ hread => ?_
  cases o with
  | some op =>
    have hread := hread rfl
    refine (hc.assignment s₂ (by omega)).bind fun value s₃ h₃ _ => ?_
    exact (assignTo_ends e op value s₃).mono fun _ s₄ (h₄ : s₄.ahead.length ≤ _) _ => by omega
  | none => exact .pure rfl (by omega)

theorem expression_eats (hc : c.Ready n) (hs : s.ahead.length ≤ n) :
    Eats (expression strtod c) (expression strtod c) s := by
  refine exprGuard_eats fun s' hs' => ?_
  have hlength :
      (if s'.exprDepth = 1 then { s' with binopDepth := 0 } else s').ahead = s'.ahead := by
    split <;> rfl
  refine Blind.bind (.modify (Q := fun _ s₁ => s₁.ahead = s'.ahead) ?_ ?_ hlength)
    fun _ s₁ _ h₁ => ?_
  · change (if s'.exprDepth = 1 then _ else _) = shadow (if s'.exprDepth = 1 then _ else _)
    split <;> rfl
  · exact Nat.le_of_eq (congrArg List.length hlength)
  · rw [← h₁] at hs'
    exact (assignment_eats hc (by omega)).mono fun _ _ _ _ => by omega

/-! ## Statements -/

theorem expressionStatement_eats (hc : c.Ready n) (hs : s.ahead.length ≤ n) :
    Eats (expressionStatement strtod c) (expressionStatement strtod c) s := by
  refine (expression_eats hc hs).bind fun e s₁ _ h₁ => ?_
  exact (consumeSemi_ends s₁).bind fun _ s₂ h₂ _ => .pure rfl (by omega)

theorem outputStatement_ends {make : List Expr → StmtKind}
    (hmake : ∀ es, shadow (make es) = make (shadow es)) (name : Bytes) (hc : c.Ready n)
    (hs : s.ahead.length < n) :
    Ends (outputStatement c name make) (outputStatement c name make) s := by
  refine (consume_blind .lparen _ s).bind fun _ s₁ h₁ _ => ?_
  refine (argumentList_ends hc (by omega)).bind fun es s₂ _ _ => ?_
  refine (consume_blind .rparen _ s₂).bind fun _ s₃ _ _ => ?_
  exact (consumeSemi_ends s₃).bind fun _ s₄ _ _ => .pure (hmake es) trivial

theorem useStatement_ends (s : Reading) : Ends useStatement useStatement s := by
  refine (check_blind .string s).bind fun _ s _ _ => .ite (fun _ => ?_) fun _ => ?_
  · refine Mirrors.gets_bind rfl (Mirrors.ite Iff.rfl (fun _ => fail_blind _) fun _ => ?_)
    refine (peek_blind s).bind fun t s _ _ => (advance_blind s).bind fun _ s _ _ => ?_
    exact (consumeSemi_ends s).bind fun _ s _ _ => .pure rfl trivial
  · refine (consume_blind .ident _ s).bind fun name s _ _ => ?_
    refine (behind_ends .as s fun s' _ => (consume_blind .ident _ s').ends).bind fun al s _ _ => ?_
    refine (consumeSemi_ends s).bind fun _ s _ _ => .pure ?_ trivial
    cases al <;> simp

theorem elseBranch_ends (hc : c.Ready n) (hs : s.ahead.length < n) :
    Ends (elseBranch c) (elseBranch c) s := by
  refine (accept_blind .elseif s).bind fun _ s₁ h₁ _ => .ite (fun _ => ?_) fun _ => ?_
  · exact (hc.ifStatement s₁ (by omega)).bind fun kind s₂ _ _ => .pure (by simp) trivial
  refine (accept_blind .else s₁).bind fun _ s₂ h₂ _ => .ite (fun _ => ?_) fun _ => .pure rfl trivial
  refine (accept_blind .if s₂).bind fun _ s₃ h₃ _ => .ite (fun _ => ?_) fun _ => ?_
  · exact (hc.ifStatement s₃ (by omega)).bind fun kind s₄ _ _ => .pure (by simp) trivial
  · refine (consume_blind .lbrace _ s₃).bind fun _ s₄ h₄ _ => ?_
    exact (block_ends hc (by omega)).bind fun b s₅ _ _ => .pure (by simp) trivial

theorem ifStatement_ends (hc : c.Ready n) (hs : s.ahead.length ≤ n) :
    Ends (ifStatement strtod c) (ifStatement strtod c) s := by
  refine (consume_blind .lparen _ s).bind fun _ s₁ h₁ _ => ?_
  refine (expression_eats hc (by omega)).bind fun cond s₂ h₂ _ => ?_
  refine (consume_blind .rparen _ s₂).bind fun _ s₃ h₃ _ => ?_
  refine (consume_blind .lbrace _ s₃).bind fun _ s₄ h₄ _ => ?_
  refine (block_ends hc (by omega)).bind fun thenBranch s₅ h₅ _ => ?_
  refine (skipSemicolons_ends s₅).bind fun _ s₆ h₆ _ => ?_
  exact (elseBranch_ends hc (by omega)).bind fun elseBranch s₇ _ _ => .pure (by simp) trivial

theorem whileStatement_ends (hc : c.Ready n) (hs : s.ahead.length < n) :
    Ends (whileStatement strtod c) (whileStatement strtod c) s := by
  refine (consume_blind .lparen _ s).bind fun _ s₁ h₁ _ => ?_
  refine (expression_eats hc (by omega)).bind fun cond s₂ h₂ _ => ?_
  refine (consume_blind .rparen _ s₂).bind fun _ s₃ h₃ _ => ?_
  refine (consume_blind .lbrace _ s₃).bind fun _ s₄ h₄ _ => ?_
  exact (block_ends hc (by omega)).bind fun body s₅ _ _ => .pure (by simp) trivial

theorem forInit_ends (hc : c.Ready n) (hs : s.ahead.length < n) :
    Ends (forInit strtod c) (forInit strtod c) s := by
  refine (check_blind .semicolon s).bind fun _ s₁ h₁ _ => .ite (fun _ => ?_) fun _ => ?_
  · exact (consume_blind .semicolon _ s₁).bind fun _ s₂ _ _ => .pure rfl trivial
  · exact (expressionStatement_eats hc (by omega)).bind fun kind s₂ _ _ => .pure rfl trivial

theorem forStatement_ends (hc : c.Ready n) (hs : s.ahead.length < n) :
    Ends (forStatement strtod c) (forStatement strtod c) s := by
  refine (consume_blind .lparen _ s).bind fun _ s₁ h₁ _ => ?_
  refine (forInit_ends hc (by omega)).bind fun init s₂ h₂ _ => ?_
  refine (before_ends .semicolon (expression_eats hc (by omega)).ends).bind fun cond s₃ h₃ _ => ?_
  refine (consume_blind .semicolon _ s₃).bind fun _ s₄ h₄ _ => ?_
  refine (before_ends .rparen (expression_eats hc (by omega)).ends).bind fun post s₅ h₅ _ => ?_
  refine (consume_blind .rparen _ s₅).bind fun _ s₆ h₆ _ => ?_
  refine (consume_blind .lbrace _ s₆).bind fun _ s₇ h₇ _ => ?_
  exact (block_ends hc (by omega)).bind fun body s₈ _ _ => .pure (by simp) trivial

theorem foreachStatement_ends (hc : c.Ready n) (hs : s.ahead.length < n) :
    Ends (foreachStatement strtod c) (foreachStatement strtod c) s := by
  refine (consume_blind .lparen _ s).bind fun _ s₁ h₁ _ => ?_
  refine (expression_eats hc (by omega)).bind fun iterable s₂ h₂ _ => ?_
  refine (consume_blind .as _ s₂).bind fun _ s₃ h₃ _ => ?_
  refine (consume_blind .ident _ s₃).bind fun first s₄ h₄ _ => ?_
  refine (behind_ends .fatArrow s₄ fun s' _ => (consume_blind .ident _ s').ends).bind
    fun second s₅ h₅ _ => ?_
  refine (consume_blind .rparen _ s₅).bind fun _ s₆ h₆ _ => ?_
  refine (consume_blind .lbrace _ s₆).bind fun _ s₇ h₇ _ => ?_
  refine (block_ends hc (by omega)).bind fun body s₈ _ _ => ?_
  cases second with
  | some v => exact .pure (by simp) trivial
  | none => exact .pure (by simp) trivial

theorem members_ends (mark : TokenType) (message : Bytes) (hc : c.Ready n)
    (hs : s.ahead.length < n) : Ends (members c mark message) (members c mark message) s := by
  refine loop_blind rfl fun items s' hs' => ?_
  refine stop_blind (atBrace_blind s').ends rfl fun s₂ h₂ => ?_
  refine (skipSemicolons_ends s₂).bind fun _ s₃ h₃ _ => ?_
  refine stop_blind (atBrace_blind s₃).ends rfl fun s₅ h₅ => ?_
  refine (consume_blind .ident _ s₅).bind fun name s₆ h₆ hless => ?_
  refine (behind_ends mark s₆ fun s h => (hc.expression s (by omega)).ends).bind
    fun value s₇ h₇ _ => ?_
  exact (accept_blind .comma s₇).bind fun _ s₈ h₈ _ => next_blind (by simp) (by omega)

theorem structDeclaration_ends (hc : c.Ready n) (hs : s.ahead.length < n) :
    Ends (structDeclaration c) (structDeclaration c) s := by
  refine (consume_blind .ident _ s).bind fun name s₁ h₁ _ => ?_
  refine (consume_blind .lbrace _ s₁).bind fun _ s₂ h₂ _ => ?_
  refine (members_ends _ _ hc (by omega)).bind fun fields s₃ _ _ => ?_
  exact (consume_blind .rbrace _ s₃).bind fun _ s₄ _ _ => .pure (by simp) trivial

theorem constBlock_ends (hc : c.Ready n) (hs : s.ahead.length < n) :
    Ends (constBlock c) (constBlock c) s := by
  refine (consume_blind .lbrace _ s).bind fun _ s₁ h₁ _ => ?_
  refine (members_ends _ _ hc (by omega)).bind fun items s₂ _ _ => ?_
  exact (consume_blind .rbrace _ s₂).bind fun _ s₃ _ _ => .pure (by simp) trivial

theorem functionDeclaration_ends (hc : c.Ready n) (hs : s.ahead.length < n) :
    Ends (functionDeclaration c) (functionDeclaration c) s := by
  refine (consume_blind .ident _ s).bind fun name s₁ h₁ _ => ?_
  refine (consume_blind .lparen _ s₁).bind fun _ s₂ h₂ _ => ?_
  refine (parameters_ends hc (by omega)).bind fun ps s₃ h₃ _ => ?_
  refine (consume_blind .rparen _ s₃).bind fun _ s₄ h₄ _ => ?_
  refine (consume_blind .lbrace _ s₄).bind fun _ s₅ h₅ _ => ?_
  exact (functionBody_ends hc (by omega)).bind fun body s₆ _ _ => .pure (by simp) trivial

theorem endsStatement_ends (s : Reading) : Ends endsStatement endsStatement s :=
  (check_blind .semicolon s).bind fun _ s _ _ => .ite (fun _ => .pure rfl trivial) fun _ =>
    (atBrace_blind s).ends

theorem returnStatement_ends (hc : c.Ready n) (hs : s.ahead.length ≤ n) :
    Ends (returnStatement strtod c) (returnStatement strtod c) s := by
  refine (endsStatement_ends s).bind fun _ s₁ h₁ _ => .ite (fun _ => ?_) fun _ => ?_
  · exact (consumeSemi_ends s₁).bind fun _ _ _ _ => .pure rfl trivial
  · refine (expression_eats hc (by omega)).bind fun e s₂ _ _ => ?_
    exact (consumeSemi_ends s₂).bind fun _ _ _ _ => .pure rfl trivial

theorem throwStatement_ends (hc : c.Ready n) (hs : s.ahead.length ≤ n) :
    Ends (throwStatement strtod c) (throwStatement strtod c) s := by
  refine (endsStatement_ends s).bind fun _ s₁ h₁ _ => .ite (fun _ => fail_blind _) fun _ => ?_
  refine (expression_eats hc (by omega)).bind fun e s₂ _ _ => ?_
  exact (consumeSemi_ends s₂).bind fun _ _ _ _ => .pure rfl trivial

theorem catchClause_ends (hc : c.Ready n) (hs : s.ahead.length < n) :
    Ends (catchClause c) (catchClause c) s := by
  refine (consume_blind .lparen _ s).bind fun _ s₁ h₁ _ => ?_
  refine (consume_blind .ident _ s₁).bind fun var s₂ h₂ _ => ?_
  refine (consume_blind .rparen _ s₂).bind fun _ s₃ h₃ _ => ?_
  refine (consume_blind .lbrace _ s₃).bind fun _ s₄ h₄ _ => ?_
  exact (block_ends hc (by omega)).bind fun b s₅ _ _ => .pure rfl trivial

theorem finallyClause_ends (hc : c.Ready n) (hs : s.ahead.length < n) :
    Ends (finallyClause c) (finallyClause c) s :=
  (consume_blind .lbrace _ s).bind fun _ s₁ h₁ _ => block_ends hc (by omega)

theorem tryStatement_ends (hc : c.Ready n) (hs : s.ahead.length < n) :
    Ends (tryStatement c) (tryStatement c) s := by
  refine (consume_blind .lbrace _ s).bind fun _ s₁ h₁ _ => ?_
  refine (block_ends hc (by omega)).bind fun tryBlock s₂ h₂ _ => ?_
  refine (skipSemicolons_ends s₂).bind fun _ s₃ h₃ _ => ?_
  refine (behind_ends .catch s₃ fun s h => catchClause_ends hc (by omega)).bind
    fun handler s₄ h₄ _ => ?_
  refine (skipSemicolons_ends s₄).bind fun _ s₅ h₅ _ => ?_
  refine (behind_ends .finally s₅ fun s h => finallyClause_ends hc (by omega)).bind
    fun last s₆ _ _ =>
    .pure ?_ trivial
  obtain _ | ⟨var, b⟩ := handler <;> simp

theorem caseBody_ends (hc : c.Ready n) (hs : s.ahead.length < n) :
    Ends (caseBody c) (caseBody c) s := by
  refine loop_blind rfl fun body s' hs' => ?_
  refine stop_blind (check_blind .case s').ends rfl fun s₁ h₁ => ?_
  refine stop_blind (check_blind .default s₁).ends rfl fun s₂ h₂ => ?_
  refine stop_blind (atBrace_blind s₂).ends rfl fun s₄ h₄ => ?_
  exact (hc.statement s₄ (by omega)).bind fun x s₅ _ h₅ => next_blind (by simp) (by omega)

theorem caseValues_eats (hc : c.Ready n) (hs : s.ahead.length ≤ n) :
    Eats (caseValues c) (caseValues c) s := by
  refine (accept_blind .default s).bind fun _ s₁ h₁ _ => .ite (fun _ => ?_) fun _ => ?_
  · exact (consume_blind .colon _ s₁).bind fun _ s₂ _ _ => .pure rfl (by omega)
  · refine (consume_blind .case _ s₁).bind fun _ s₂ h₂ _ => ?_
    refine (expressions_ends hc (by omega)).bind fun values s₃ h₃ _ => ?_
    exact (consume_blind .colon _ s₃).bind fun _ s₄ _ _ => .pure rfl (by omega)

theorem switchCase_eats (hc : c.Ready n) (hs : s.ahead.length ≤ n) :
    Eats (switchCase c) (switchCase c) s := by
  refine (caseValues_eats hc hs).bind fun values s₁ _ h₁ => ?_
  exact (caseBody_ends hc (by omega)).bind fun body s₂ h₂ _ => .pure rfl (by omega)

theorem switchStatement_ends (hc : c.Ready n) (hs : s.ahead.length < n) :
    Ends (switchStatement strtod c) (switchStatement strtod c) s := by
  refine (consume_blind .lparen _ s).bind fun _ s₁ h₁ _ => ?_
  refine (expression_eats hc (by omega)).bind fun subject s₂ h₂ _ => ?_
  refine (consume_blind .rparen _ s₂).bind fun _ s₃ h₃ _ => ?_
  refine (consume_blind .lbrace _ s₃).bind fun _ s₄ h₄ _ => ?_
  refine (loop_blind (Q := fun _ _ => True) rfl fun cases s₅ h₅ => ?_).bind fun cases s₅ _ _ => ?_
  · refine stop_blind (atBrace_blind s₅).ends rfl fun s₇ h₇ => ?_
    exact (switchCase_eats hc (by omega)).bind fun sc s₈ _ h₈ => next_blind (by simp) (by omega)
  · exact (consume_blind .rbrace _ s₅).bind fun _ s₆ _ _ => .pure (by simp) trivial

theorem keywordStatement_ends {type : TokenType} {m : Parser StmtKind}
    (hm : keywordStatement strtod c type = some m) (hc : c.Ready n) (hs : s.ahead.length < n) :
    Ends m m s := by
  cases type
  case use => cases hm; exact useStatement_ends s
  case print => cases hm; exact outputStatement_ends (fun _ => by simp) _ hc hs
  case write => cases hm; exact outputStatement_ends (fun _ => by simp) _ hc hs
  case «if» => cases hm; exact ifStatement_ends hc (Nat.le_of_lt hs)
  case «while» => cases hm; exact whileStatement_ends hc hs
  case «for» => cases hm; exact forStatement_ends hc hs
  case foreach => cases hm; exact foreachStatement_ends hc hs
  case «return» => cases hm; exact returnStatement_ends hc (Nat.le_of_lt hs)
  case throw => cases hm; exact throwStatement_ends hc (Nat.le_of_lt hs)
  case function => cases hm; exact functionDeclaration_ends hc hs
  case «try» => cases hm; exact tryStatement_ends hc hs
  case switch => cases hm; exact switchStatement_ends hc hs
  case struct => cases hm; exact structDeclaration_ends hc hs
  case const => cases hm; exact constBlock_ends hc hs
  case «break» => cases hm; exact (consumeSemi_ends s).bind fun _ _ _ _ => .pure rfl trivial
  case «continue» => cases hm; exact (consumeSemi_ends s).bind fun _ _ _ _ => .pure rfl trivial
  case lbrace =>
    cases hm
    exact (block_ends hc hs).bind fun b s' _ _ => .pure (by simp) trivial
  all_goals cases hm

theorem statementOf_eats (hc : c.Ready n) (hs : s.ahead.length ≤ n) :
    Eats (statementOf strtod c s.peek.type) (statementOf strtod c s.peek.type) s := by
  unfold statementOf
  split
  · rename_i m hm
    have hne : s.peek.type ≠ .eof := by
      intro htype
      rw [htype] at hm
      cases hm
    refine (advance_eats hne).bind fun _ s' _ hless => ?_
    exact (keywordStatement_ends hm hc (by omega)).mono
      fun _ s'' (hle : s''.ahead.length ≤ _) _ => by omega
  · exact expressionStatement_eats hc hs

theorem statement_eats (hc : c.Ready n) (hs : s.ahead.length ≤ n) :
    Eats (statement strtod c) (statement strtod c) s := by
  refine Blind.bind (.modify (Q := fun _ s' => s'.ahead = s.ahead) rfl (Nat.le_refl _) rfl)
    fun _ s' h' _ => ?_
  refine Mirrors.gets_bind rfl (Mirrors.ite Iff.rfl (fun _ => fail_blind _) fun _ => ?_)
  refine (peek_blind s').bind fun t s₁ h₁ ht => ?_
  obtain ⟨rfl, rfl⟩ := ht
  refine (statementOf_eats hc (by omega)).bind fun kind s₂ _ h₂ => ?_
  exact Blind.bind (.modify (Q := fun _ s₃ => s₃.ahead = s₂.ahead) rfl (Nat.le_refl _) rfl)
    fun _ s₃ h₃ _ => .pure rfl (by omega)

/-! ## The tree -/

theorem calls_ready (n : Nat) : (Calls.at strtod n).Ready n := by
  induction n with
  | zero => constructor <;> exact fun s hs => absurd hs (Nat.not_lt_zero _)
  | succ n ih =>
    constructor
    · exact fun s hs => statement_eats ih (Nat.le_of_lt_succ hs)
    · exact fun s hs => (ifStatement_ends ih (Nat.le_of_lt_succ hs)).bind fun kind s' _ _ =>
        .pure rfl trivial
    · exact fun s hs => expression_eats ih (Nat.le_of_lt_succ hs)
    · exact fun s hs => assignment_eats ih (Nat.le_of_lt_succ hs)
    · exact fun s hs => ternary_eats ih (Nat.le_of_lt_succ hs)
    · exact fun s hs => power_eats ih (Nat.le_of_lt_succ hs)
    · exact fun s hs => unary_eats ih (Nat.le_of_lt_succ hs)

theorem program_ends (hc : c.Ready n) (hs : s.ahead.length ≤ n) :
    Ends (program strtod c) (program strtod c) s := by
  refine loop_blind rfl fun statements s' hs' => ?_
  refine stop_blind (isAtEnd_blind s') rfl fun s₁ h₁ => ?_
  refine (skipSemicolons_ends s₁).bind fun _ s₂ h₂ _ => ?_
  refine stop_blind (isAtEnd_blind s₂) rfl fun s₃ h₃ => ?_
  exact (statement_eats hc (by omega)).bind fun x s₄ _ h₄ => next_blind (by simp) (by omega)

/-- As many calls as there are tokens are enough for every list of tokens. -/
theorem parse_ne_timeout (strtod : Bytes → Double) (tokens : List Token) :
    parse strtod tokens ≠ .timeout :=
  (program_ends (calls_ready tokens.length) (Nat.le_refl _)).1.ne_timeout

/-- The lines of the tokens come into the lines of the tree and of the error, and nowhere else. -/
theorem parse_shadow (strtod : Bytes → Double) (tokens : List Token) :
    parse strtod (shadow tokens) = shadow (parse strtod tokens) := by
  have hlength : (shadow tokens).length = tokens.length := List.length_map _
  rw [parse, hlength]
  exact (program_ends (calls_ready _) (s := ⟨tokens, none, 0, 0, 0, 0⟩) (Nat.le_refl _)).2

end Grammar

end Syntax

end Look
