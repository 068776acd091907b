/-
When comments and blank lines change what the semicolons are.

Between two tokens stands a gap: blanks, newlines and comments.  What the lexer makes of a gap
is at most one semicolon: it puts one there when the token before asks for it and some newline
of the gap, outside the comments, has no continuation behind it (`Breaks`).  So a comment can
be replaced by blanks, or a run of blank lines by one, exactly where that stays as it is
(`keys_rewrite_iff`).  It does not always: what `is_continuation_ahead` looks at is bytes, and
the slash of a comment is one of the operators.
-/
import Look.Syntax.Munch

namespace Look

namespace Syntax

/-- A token without its place in the source. -/
abbrev Key := TokenType × Bytes

def Token.key (t : Token) : Key := (t.type, t.lexeme)

/-- The types and lexemes of the tokens of a source. -/
def keys (source : Bytes) : Option (List Key) :=
  match scanTokens source with
  | .ok tokens => some (tokens.map Token.key)
  | .error _ => none

/-! ## The run of the lexer -/

def Piece.IsToken : Piece → Prop
  | .token .. => True
  | _ => False

namespace Context

variable (κ : Context)

/-- The context behind a piece. -/
def after (scan : Scan) : Context :=
  match scan.piece with
  | .token type _ _ => κ.add type
  | .newline => if κ.inserts scan.rest then κ.add .semicolon else κ
  | _ => κ

/-- What the piece that begins with `c` adds to the tokens. -/
def emits (c : UInt8) (scan : Scan) : List Key :=
  match scan.piece with
  | .token type _ _ => [(type, c :: scan.text)]
  | .newline => if κ.inserts scan.rest then [(.semicolon, [0x3B])] else []
  | _ => []

end Context

/-- The lexer makes the tokens `ks` of the text, to its end. -/
inductive Lexes : Context → Bytes → List Key → Prop where
  | done (κ : Context) :
    Lexes κ [] ((if κ.inserts [] then [(.semicolon, [0x3B])] else []) ++ [(.eof, [])])
  | step {κ c s scan ks} (h : munch c s = .ok scan) (rest : Lexes (κ.after scan) scan.rest ks) :
    Lexes κ (c :: s) (κ.emits c scan ++ ks)

theorem Lexes.unique {κ : Context} {s : Bytes} {ks ks' : List Key} (h : Lexes κ s ks)
    (h' : Lexes κ s ks') : ks = ks' := by
  induction h generalizing ks' with
  | done κ =>
    cases h'
    rfl
  | step h _ ih =>
    cases h' with
    | step h' rest' =>
      cases h.symm.trans h'
      rw [ih rest']

/-- The tokens of the loop and those that come at the end of the file. -/
def Lexer.keys (σ : Lexer) : List Key :=
  ((σ.endLine []).push .eof [] none false).tokens.map Token.key

theorem Lexer.push_keys (σ : Lexer) (type : TokenType) (lexeme : Bytes) (literal : Option Bytes)
    (raw : Bool) : (σ.push type lexeme literal raw).tokens.map Token.key =
      σ.tokens.map Token.key ++ [(type, lexeme)] := by
  rw [Lexer.push, List.map_append]
  rfl

theorem Lexer.keys_eq (σ : Lexer) : σ.keys = σ.tokens.map Token.key ++
    ((if σ.context.inserts [] then [(.semicolon, [0x3B])] else []) ++ [(.eof, [])]) := by
  unfold Lexer.keys Lexer.endLine
  rw [Lexer.push_keys]
  split
  · rw [Lexer.push_keys, List.append_assoc]
  · rfl

/-- What a turn of the loop does, by the piece that it reads. -/
theorem scanToken_ok {σ : Lexer} {c : UInt8} {s : Bytes} {scan : Scan} (h : munch c s = .ok scan) :
    ∃ σ', scanToken σ c s = .ok (σ', scan.rest) ∧ σ'.context = σ.context.after scan ∧
      σ'.tokens.map Token.key = σ.tokens.map Token.key ++ σ.context.emits c scan := by
  unfold scanToken
  rw [h]
  unfold Context.after Context.emits
  dsimp only
  cases scan.piece with
  | token type literal raw => exact ⟨_, rfl, rfl, Lexer.push_keys _ _ _ _ _⟩
  | newline =>
    refine ⟨_, rfl, ?_, ?_⟩ <;> unfold Lexer.endLine <;> dsimp only <;> split
    · rfl
    · rfl
    · exact Lexer.push_keys _ _ _ _ _
    · exact (List.append_nil _).symm
  | blank => exact ⟨_, rfl, rfl, (List.append_nil _).symm⟩
  | comment => exact ⟨_, rfl, rfl, (List.append_nil _).symm⟩

theorem scanToken_error {σ : Lexer} {c : UInt8} {s : Bytes} {e : LexError}
    (h : munch c s = .error e) : scanToken σ c s = .error (errorText σ.line e) := by
  rw [scanToken, h]

theorem length_rest {c : UInt8} {s : Bytes} {scan : Scan} (h : munch c s = .ok scan) :
    scan.rest.length ≤ s.length := by
  have htext := congrArg List.length (munch_text h)
  rw [List.length_append] at htext
  omega

/-- The loop is the run; it is long enough when it may take a turn for every byte. -/
theorem scanLoop_ok {n : Nat} {σ σ' : Lexer} {s : Bytes} (hn : s.length ≤ n)
    (h : scanLoop n σ s = .ok σ') :
    ∃ ks, Lexes σ.context s ks ∧ σ'.keys = σ.tokens.map Token.key ++ ks := by
  induction n generalizing σ s with
  | zero =>
    obtain rfl := List.length_eq_zero_iff.mp (Nat.le_zero.mp hn)
    cases h
    exact ⟨_, .done _, Lexer.keys_eq σ'⟩
  | succ n ih =>
    cases s with
    | nil =>
      cases h
      exact ⟨_, .done _, Lexer.keys_eq σ'⟩
    | cons c s =>
      rw [scanLoop] at h
      cases hmunch : munch c s with
      | error e =>
        rw [scanToken_error hmunch] at h
        cases h
      | ok scan =>
        obtain ⟨σ₁, hstep, hcontext, htokens⟩ := scanToken_ok (σ := σ) hmunch
        rw [hstep] at h
        have hle := length_rest hmunch
        obtain ⟨ks, hrest, hkeys⟩ := ih (by rw [List.length_cons] at hn; omega) h
        rw [hcontext] at hrest
        exact ⟨_, .step hmunch hrest, by rw [hkeys, htokens, List.append_assoc]⟩

theorem scanLoop_of_lexes {n : Nat} {σ : Lexer} {κ : Context} {s : Bytes} {ks : List Key}
    (hκ : σ.context = κ) (h : Lexes κ s ks) (hn : s.length ≤ n) :
    ∃ σ', scanLoop n σ s = .ok σ' ∧ σ'.keys = σ.tokens.map Token.key ++ ks := by
  induction h generalizing n σ with
  | done κ =>
    cases hκ
    exact ⟨σ, by cases n <;> rfl, Lexer.keys_eq σ⟩
  | @step κ c s scan ks hmunch _ ih =>
    cases hκ
    obtain ⟨σ₁, hstep, hcontext, htokens⟩ := scanToken_ok (σ := σ) hmunch
    have hle := length_rest hmunch
    cases n with
    | zero => exact absurd hn (Nat.not_succ_le_zero _)
    | succ n =>
      obtain ⟨σ', hloop, hkeys⟩ := ih hcontext (Nat.le_trans hle (Nat.le_of_succ_le_succ hn))
      rw [scanLoop, hstep]
      exact ⟨σ', hloop, by rw [hkeys, htokens, List.append_assoc]⟩

theorem keys_eq_some {source : Bytes} {ks : List Key} :
    keys source = some ks ↔ Lexes .start (skipBom source) ks := by
  unfold keys scanTokens
  dsimp only
  constructor
  · intro h
    split at h
    · rename_i tokens hscan
      split at hscan
      · cases hscan
      · rename_i σ hloop
        cases hscan
        obtain ⟨ks', hlexes, hkeys⟩ := scanLoop_ok (Nat.le_refl _) hloop
        change some σ.keys = some ks at h
        rw [hkeys] at h
        cases h
        exact hlexes
    · cases h
  · intro h
    obtain ⟨σ, hloop, hkeys⟩ := scanLoop_of_lexes (σ := ⟨.start, 1, []⟩) rfl h (Nat.le_refl _)
    rw [hloop]
    exact congrArg some hkeys

/-! ## To the end of a token -/

/-- Before `t`, the lexer has read `p`, which ends with a token, and has made `ks` of it. -/
inductive Reaches (t : Bytes) : Context → Bytes → Context → List Key → Prop where
  | token {κ c w n type literal raw}
    (h : munch c (w ++ t) = .ok ⟨.token type literal raw, w, n, t⟩) :
    Reaches t κ (c :: w) (κ.add type) [(type, c :: w)]
  | step {κ κ' c w n p piece ks} (h : munch c (w ++ (p ++ t)) = .ok ⟨piece, w, n, p ++ t⟩)
    (rest : Reaches t (κ.after ⟨piece, w, n, p ++ t⟩) p κ' ks) :
    Reaches t κ (c :: (w ++ p)) κ' (κ.emits c ⟨piece, w, n, p ++ t⟩ ++ ks)

/-- What is read is the text before `t`, to the end of a token or nothing. -/
def Before (t p : Bytes) (κ : Context) (ks : List Key) : Prop :=
  p = [] ∧ κ = .start ∧ ks = [] ∨ Reaches t .start p κ ks

theorem Reaches.ne_nil {t p : Bytes} {κ κ' : Context} {ks : List Key} (h : Reaches t κ p κ' ks) :
    p ≠ [] := by
  cases h <;> exact List.cons_ne_nil _ _

theorem Reaches.lexes {t p : Bytes} {κ κ' : Context} {ks ks' : List Key} (h : Reaches t κ p κ' ks)
    (h' : Lexes κ' t ks') : Lexes κ (p ++ t) (ks ++ ks') := by
  induction h with
  | token h => exact .step h h'
  | step h _ ih =>
    have hlexes := Lexes.step h (ih h')
    rwa [← List.append_assoc, ← List.append_assoc, ← List.cons_append] at hlexes

theorem Reaches.exists_lexes {t p : Bytes} {κ κ' : Context} {ks ks' : List Key}
    (h : Reaches t κ p κ' ks) (h' : Lexes κ (p ++ t) ks') : ∃ ks'', Lexes κ' t ks'' := by
  induction h generalizing ks' with
  | token h =>
    cases h' with
    | step h' hlexes =>
      cases h.symm.trans h'
      exact ⟨_, hlexes⟩
  | step h _ ih =>
    rw [List.cons_append, List.append_assoc] at h'
    cases h' with
    | step h' hlexes =>
      cases h.symm.trans h'
      exact ih hlexes

/-! ### The bytes behind do not matter -/

/-- What is ahead is decided by the first byte that is neither blank nor a newline. -/
theorem isContinuationAhead_solid (x : Bytes) {c : UInt8} (hblank : isBlank c = false) (hlf : c ≠ lf)
    (z z' : Bytes) : isContinuationAhead (x ++ c :: z) = isContinuationAhead (x ++ c :: z') := by
  have hspace : (c = 0x20 || c = 0x09) = false := by
    simp only [isBlank, Bool.or_eq_false_iff] at hblank ⊢
    exact ⟨hblank.1.1, hblank.2⟩
  have hdrop (p : UInt8 → Bool) (hp : p c = false) (x z : Bytes) :
      (x ++ c :: z).dropWhile p = x.dropWhile p ++ c :: z := by
    induction x with
    | nil => rw [List.nil_append, List.dropWhile_cons, hp]; rfl
    | cons a x ih =>
      rw [List.cons_append, List.dropWhile_cons, List.dropWhile_cons]
      split
      · exact ih
      · rfl
  have hhead (x z z' : Bytes) : (x ++ c :: z).head? = (x ++ c :: z').head? := by
    cases x <;> rfl
  unfold isContinuationAhead
  dsimp only
  rw [hdrop isBlank hblank, hdrop isBlank hblank, hhead _ z z']
  cases hx : x.dropWhile isBlank with
  | nil =>
    have hnot : ¬([] ++ c :: z' : Bytes).head? = some lf := fun h => hlf (Option.some.inj h)
    rw [if_neg hnot, if_neg hnot, hdrop _ hspace, hdrop _ hspace, hhead _ z z']
  | cons a y =>
    split
    · rw [List.cons_append, List.cons_append, List.drop_one, List.drop_one, List.tail_cons,
        List.tail_cons, hdrop _ hspace, hdrop _ hspace, hhead _ z z']
    · rw [hdrop _ hspace, hdrop _ hspace, hhead _ z z']

theorem Reaches.solid {t p : Bytes} {κ κ' : Context} {ks : List Key} (h : Reaches t κ p κ' ks) :
    ∃ x c y, p = x ++ c :: y ∧ isBlank c = false ∧ c ≠ lf := by
  induction h with
  | @token κ c w n type literal raw h =>
    refine ⟨[], c, w, rfl, ?_, ?_⟩
    · rw [Bool.eq_false_iff]
      intro hblank
      rw [munch_blank hblank] at h
      cases h
    · rintro rfl
      rw [munch_lf] at h
      cases h
  | step _ _ ih =>
    obtain ⟨x, c, y, rfl, hblank, hlf⟩ := ih
    exact ⟨_ :: (_ ++ x), c, y, by rw [List.cons_append, List.append_assoc], hblank, hlf⟩

theorem Reaches.ahead {t p : Bytes} {κ κ' : Context} {ks : List Key} (h : Reaches t κ p κ' ks)
    (t' : Bytes) : isContinuationAhead (p ++ t') = isContinuationAhead (p ++ t) := by
  obtain ⟨x, c, y, rfl, hblank, hlf⟩ := h.solid
  rw [List.append_assoc, List.append_assoc]
  exact isContinuationAhead_solid x hblank hlf (y ++ t') (y ++ t)

/-- The lexer reaches the same place when something alike comes behind it. -/
theorem Reaches.change {t t' p : Bytes} {κ κ' : Context} {ks : List Key} (h : Reaches t κ p κ' ks)
    (ht : Alike t t') : Reaches t' κ p κ' ks := by
  induction h with
  | token h => exact .token (munch_change h ht)
  | @step κ κ' c w n p piece ks h hreach ih =>
    have hhead : (p ++ t').head? = (p ++ t).head? := by
      cases p with
      | nil => exact absurd rfl hreach.ne_nil
      | cons c p => rfl
    have hfits : Scan.Fits ⟨piece, w, n, p ++ t⟩ (p ++ t') := by
      cases piece with
      | token type literal raw => exact ht.append p
      | blank => trivial
      | newline => trivial
      | comment => exact fun _ => hhead
    have hinserts : κ.inserts (p ++ t') = κ.inserts (p ++ t) := by
      rw [Context.inserts, Context.inserts, hreach.ahead t']
    have hafter : κ.after ⟨piece, w, n, p ++ t'⟩ = κ.after ⟨piece, w, n, p ++ t⟩ := by
      cases piece <;> simp only [Context.after, hinserts]
    have hemits : κ.emits c ⟨piece, w, n, p ++ t'⟩ = κ.emits c ⟨piece, w, n, p ++ t⟩ := by
      cases piece <;> simp only [Context.emits, hinserts]
    rw [← hafter] at ih
    rw [← hemits]
    exact .step (munch_change h hfits) ih

/-! ## Gaps -/

/-- Before `r`: blanks, newlines and comments. -/
inductive Gap (r : Bytes) : Bytes → Prop where
  | nil : Gap r []
  | step {c w n g piece} (h : munch c (w ++ (g ++ r)) = .ok ⟨piece, w, n, g ++ r⟩)
    (hp : ¬piece.IsToken) (rest : Gap r g) : Gap r (c :: (w ++ g))

/-- Some newline of the gap has no continuation behind it. -/
inductive Breaks (r : Bytes) : Bytes → Prop where
  | here {g} (hg : Gap r g) (h : isContinuationAhead (g ++ r) = false) : Breaks r (lf :: g)
  | later {c w n g piece} (h : munch c (w ++ (g ++ r)) = .ok ⟨piece, w, n, g ++ r⟩)
    (hp : ¬piece.IsToken) (rest : Breaks r g) : Breaks r (c :: (w ++ g))

/-- A token begins, or the text ends. -/
def Starts (r : Bytes) : Prop :=
  ∀ c s, r = c :: s → ∀ scan, munch c s = .ok scan → scan.piece.IsToken

theorem add_semicolon_add (κ : Context) (type : TokenType) :
    (κ.add .semicolon).add type = κ.add type := by
  cases type <;> rfl

theorem not_wants_semicolon (κ : Context) : (κ.add .semicolon).wants = false :=
  Bool.and_false _

/-- The last token does not matter before a token. -/
theorem Lexes.of_add {κ κ' : Context} {r : Bytes} {ks : List Key} (hr : Starts r) (hne : r ≠ [])
    (hadd : ∀ type, κ'.add type = κ.add type) (h : Lexes κ r ks) : Lexes κ' r ks := by
  cases h with
  | done => exact absurd rfl hne
  | @step _ c s scan ks h hrest =>
    have htoken := hr c s rfl scan h
    obtain ⟨piece, w, n, t⟩ := scan
    cases piece with
    | token type literal raw =>
      have hrest' : Lexes (κ.add type) t ks := hrest
      rw [← hadd type] at hrest'
      exact .step (κ := κ') h hrest'
    | blank => exact htoken.elim
    | newline => exact htoken.elim
    | comment => exact htoken.elim

/-- A piece of a gap that puts no semicolon changes nothing. -/
theorem lexes_piece {κ : Context} {c : UInt8} {w s : Bytes} {n : Nat} {piece : Piece} {ks : List Key}
    (h : munch c (w ++ s) = .ok ⟨piece, w, n, s⟩) (hp : ¬piece.IsToken)
    (hnewline : c = lf → κ.inserts s = false) (hrest : Lexes κ s ks) :
    Lexes κ (c :: (w ++ s)) ks := by
  cases piece with
  | token => exact absurd trivial hp
  | blank => exact .step h hrest
  | comment => exact .step h hrest
  | newline =>
    have hinserts := hnewline (munch_begins h)
    have hafter : κ.after ⟨.newline, w, n, s⟩ = κ := by
      simp only [Context.after, hinserts, Bool.false_eq_true, if_false]
    have hemits : κ.emits c ⟨.newline, w, n, s⟩ = [] := by
      simp only [Context.emits, hinserts, Bool.false_eq_true, if_false]
    have hstep := Lexes.step (κ := κ) h (by rw [hafter]; exact hrest)
    rwa [hemits] at hstep

theorem append_piece (c : UInt8) (w g r : Bytes) : c :: (w ++ g) ++ r = c :: (w ++ (g ++ r)) := by
  rw [List.cons_append, List.append_assoc]

/-- Where no semicolon is wanted, a gap is nothing. -/
theorem Gap.lexes_of_not_wants {κ : Context} {r g : Bytes} {ks : List Key} (hg : Gap r g)
    (hwants : κ.wants = false) (h : Lexes κ r ks) : Lexes κ (g ++ r) ks := by
  have hinserts (s : Bytes) : κ.inserts s = false := by rw [Context.inserts, hwants, Bool.false_and]
  induction hg with
  | nil => exact h
  | step hmunch hp _ ih =>
    rw [append_piece]
    exact lexes_piece hmunch hp (fun _ => hinserts _) ih

theorem Breaks.gap {r g : Bytes} (h : Breaks r g) : Gap r g := by
  induction h with
  | here hg _ => exact .step (w := []) (munch_lf _) id hg
  | later hmunch hp _ ih => exact .step hmunch hp ih

/-- Where no newline ends the line, a gap is nothing. -/
theorem Gap.lexes_of_not_breaks {κ : Context} {r g : Bytes} {ks : List Key} (hg : Gap r g)
    (hbreaks : ¬Breaks r g) (h : Lexes κ r ks) : Lexes κ (g ++ r) ks := by
  induction hg with
  | nil => exact h
  | @step c w n g piece hmunch hp hg ih =>
    rw [append_piece]
    refine lexes_piece hmunch hp ?_ (ih fun hb => hbreaks (.later hmunch hp hb))
    rintro rfl
    rw [munch_lf] at hmunch
    obtain ⟨rfl, rfl, rfl⟩ : piece = .newline ∧ w = [] ∧ n = 0 := by
      cases hmunch
      exact ⟨rfl, rfl, rfl⟩
    have hahead : isContinuationAhead (g ++ r) = true := by
      rw [← Bool.not_eq_false]
      exact fun hnot => hbreaks (.here hg hnot)
    rw [Context.inserts, hahead, Bool.not_true, Bool.and_false]

/-- Where a newline ends the line, a gap is one semicolon. -/
theorem Breaks.lexes {κ : Context} {r g : Bytes} {ks : List Key} (hb : Breaks r g)
    (hwants : κ.wants = true) (h : Lexes (κ.add .semicolon) r ks) :
    Lexes κ (g ++ r) ((.semicolon, [0x3B]) :: ks) := by
  have hbreak {g : Bytes} (hg : Gap r g) (hinserts : κ.inserts (g ++ r) = true) :
      Lexes κ (lf :: (g ++ r)) ((.semicolon, [0x3B]) :: ks) := by
    have hafter : κ.after ⟨.newline, [], 0, g ++ r⟩ = κ.add .semicolon := by
      simp only [Context.after, hinserts, if_true]
    have hemits : κ.emits lf ⟨.newline, [], 0, g ++ r⟩ = [(.semicolon, [0x3B])] := by
      simp only [Context.emits, hinserts, if_true]
    have hgap := hg.lexes_of_not_wants (not_wants_semicolon κ) h
    have hstep := Lexes.step (κ := κ) (munch_lf (g ++ r)) (by rw [hafter]; exact hgap)
    rwa [hemits] at hstep
  induction hb with
  | here hg hahead =>
    exact hbreak hg (by rw [Context.inserts, hwants, hahead]; rfl)
  | @later c w n g piece hmunch hp hb ih =>
    rw [append_piece]
    by_cases hinserts : c = lf ∧ κ.inserts (g ++ r) = true
    · obtain ⟨rfl, hinserts⟩ := hinserts
      have hw := (munch_lf _).symm.trans hmunch
      obtain rfl : w = [] := by
        cases hw
        rfl
      exact hbreak hb.gap hinserts
    · refine lexes_piece hmunch hp ?_ ih
      intro hc
      rw [← Bool.not_eq_true]
      exact fun hins => hinserts ⟨hc, hins⟩

/-- The tokens behind a gap, as they are without it and with a semicolon before. -/
theorem Gap.lexes {κ : Context} {r g : Bytes} {ks : List Key} (hg : Gap r g) (hr : Starts r)
    (h : Lexes κ r ks) :
    (κ.wants = true ∧ r ≠ [] ∧ Breaks r g → Lexes κ (g ++ r) ((.semicolon, [0x3B]) :: ks)) ∧
      (¬(κ.wants = true ∧ r ≠ [] ∧ Breaks r g) → Lexes κ (g ++ r) ks) := by
  constructor
  · rintro ⟨hwants, hne, hb⟩
    exact hb.lexes hwants (h.of_add hr hne (add_semicolon_add κ))
  · intro hnot
    cases hwants : κ.wants with
    | false => exact hg.lexes_of_not_wants hwants h
    | true =>
      by_cases hb : Breaks r g
      · -- at the end of the file the semicolon comes anyway
        obtain rfl : r = [] := by
          by_contra hne
          exact hnot ⟨hwants, hne, hb⟩
        have hbreak := hb.lexes hwants (.done (κ.add .semicolon))
        have hinserts : κ.inserts [] = true := by rw [Context.inserts, hwants]; rfl
        have hinserts' : (κ.add .semicolon).inserts [] = false := by
          rw [Context.inserts, not_wants_semicolon, Bool.false_and]
        cases h
        rw [hinserts'] at hbreak
        rw [hinserts]
        exact hbreak
      · exact hg.lexes_of_not_breaks hb h

theorem after_add (κ : Context) {scan : Scan} (hp : ¬scan.piece.IsToken) (type : TokenType) :
    (κ.after scan).add type = κ.add type := by
  obtain ⟨piece, w, n, t⟩ := scan
  cases piece with
  | token => exact absurd trivial hp
  | blank => rfl
  | comment => rfl
  | newline =>
    unfold Context.after
    dsimp only
    split
    · exact add_semicolon_add κ type
    · rfl

/-- What comes behind a gap has tokens when the whole has. -/
theorem Gap.exists_lexes {κ : Context} {r g : Bytes} {ks : List Key} (hg : Gap r g) (hr : Starts r)
    (h : Lexes κ (g ++ r) ks) : ∃ ks', Lexes κ r ks' := by
  by_cases hne : r = []
  · rw [hne]
    exact ⟨_, .done κ⟩
  induction hg generalizing κ ks with
  | nil => exact ⟨ks, h⟩
  | @step c w n g piece hmunch hp hg ih =>
    rw [append_piece] at h
    cases h with
    | step hmunch' hrest =>
      cases hmunch.symm.trans hmunch'
      obtain ⟨ks', hks⟩ := ih hrest
      exact ⟨ks', hks.of_add hr hne fun type => (after_add κ hp type).symm⟩

/-! ## Replacing -/

theorem Gap.append {r g g' : Bytes} (hg : Gap (g' ++ r) g) (hg' : Gap r g') : Gap r (g ++ g') := by
  induction hg with
  | nil => exact hg'
  | step hmunch hp _ ih =>
    rw [append_piece]
    rw [← List.append_assoc _ g' r] at hmunch
    exact .step hmunch hp ih

/-- Blanks and newlines. -/
theorem gap_blanks {r g : Bytes} (h : ∀ c ∈ g, isBlank c ∨ c = lf) : Gap r g := by
  induction g with
  | nil => exact .nil
  | cons c g ih =>
    have hrest := ih fun b hb => h b (List.mem_cons_of_mem _ hb)
    obtain hc | rfl := h c List.mem_cons_self
    · exact .step (w := []) (munch_blank hc _) id hrest
    · exact .step (w := []) (munch_lf _) id hrest

/-- A gap stays a gap before another text, unless a comment would not end there. -/
theorem Gap.change {t t' g : Bytes} (hg : Gap t g)
    (ht : t.head?.all (· = lf) → t'.head? = t.head?) : Gap t' g := by
  induction hg with
  | nil => exact .nil
  | @step c w n g piece hmunch hp _ ih =>
    refine .step (munch_change hmunch ?_) hp ih
    cases piece with
    | token => exact absurd trivial hp
    | blank => trivial
    | newline => trivial
    | comment =>
      cases g with
      | nil => exact ht
      | cons c g => exact fun _ => rfl

/-- Spaces for a comment; its newlines stay. -/
def blanked (s : Bytes) : Bytes := s.map fun c => if c = lf then lf else 0x20

/-- Blank lines. -/
def blankLines (lines : List Bytes) : Bytes := lines.flatMap (· ++ [lf])

/-- A gap before `r`, and the gap with one comment replaced by spaces, or with one run of blank
lines replaced by an empty line. -/
inductive Rewrite (r : Bytes) : Bytes → Bytes → Prop where
  | comment {g₁ c w n g₂} (h₁ : Gap (c :: (w ++ (g₂ ++ r))) g₁)
    (h : munch c (w ++ (g₂ ++ r)) = .ok ⟨.comment, w, n, g₂ ++ r⟩) (h₂ : Gap r g₂) :
    Rewrite r (g₁ ++ (c :: (w ++ g₂))) (g₁ ++ (blanked (c :: w) ++ g₂))
  | lines {g₁ lines g₂} (h₁ : Gap (lf :: (blankLines lines ++ (g₂ ++ r))) g₁) (hne : lines ≠ [])
    (hlines : ∀ line ∈ lines, ∀ c ∈ line, isBlank c) (h₂ : Gap r g₂) :
    Rewrite r (g₁ ++ (lf :: (blankLines lines ++ g₂))) (g₁ ++ (lf :: lf :: g₂))
  /-- The file begins with blank lines. -/
  | first {lines g₂} (hne : lines ≠ []) (hlines : ∀ line ∈ lines, ∀ c ∈ line, isBlank c)
    (h₂ : Gap r g₂) : Rewrite r (blankLines lines ++ g₂) (lf :: g₂)

theorem mem_blanked {s : Bytes} {c : UInt8} (h : c ∈ blanked s) : isBlank c ∨ c = lf := by
  obtain ⟨b, _, rfl⟩ := List.mem_map.mp h
  split
  · exact .inr rfl
  · exact .inl rfl

theorem mem_blankLines {lines : List Bytes} (h : ∀ line ∈ lines, ∀ c ∈ line, isBlank c)
    {c : UInt8} (hc : c ∈ blankLines lines) : isBlank c ∨ c = lf := by
  obtain ⟨line, hline, hmem⟩ := List.mem_flatMap.mp hc
  obtain hmem | hmem := List.mem_append.mp hmem
  · exact .inl (h line hline c hmem)
  · exact .inr (List.mem_singleton.mp hmem)

theorem Rewrite.gap {r g g' : Bytes} (h : Rewrite r g g') : Gap r g ∧ Gap r g' := by
  cases h with
  | @comment g₁ c w n g₂ h₁ h h₂ =>
    have hc : c ≠ lf := by
      rintro rfl
      rw [munch_lf] at h
      cases h
    constructor
    · refine Gap.append (by rwa [append_piece]) (.step h (fun hp => hp) h₂)
    · refine Gap.append (h₁.change fun hall => absurd ?_ hc)
        ((gap_blanks fun b hb => mem_blanked hb).append h₂)
      simpa using hall
  | @lines g₁ lines g₂ h₁ hne hlines h₂ =>
    have hempty : Gap (lf :: (blankLines lines ++ (g₂ ++ r))) g₁ ↔
        Gap (lf :: lf :: g₂ ++ r) g₁ := ⟨fun h => h.change fun _ => rfl, fun h => h.change fun _ => rfl⟩
    constructor
    · refine Gap.append (by rwa [List.cons_append, List.append_assoc]) ?_
      exact .step (w := []) (munch_lf _) id
        ((gap_blanks fun b hb => mem_blankLines hlines hb).append h₂)
    · exact Gap.append (hempty.mp h₁) (.step (w := []) (munch_lf _) id
        (.step (w := []) (munch_lf _) id h₂))
  | @first lines g₂ hne hlines h₂ =>
    exact ⟨(gap_blanks fun b hb => mem_blankLines hlines hb).append h₂,
      .step (w := []) (munch_lf _) id h₂⟩

theorem Gap.head_isSep {r g : Bytes} {b : UInt8} (hg : Gap r (b :: g)) : isSep b := by
  cases hg with
  | step h hp _ =>
    refine (munch_begins h).isSep ?_
    rintro type literal raw rfl
    exact hp trivial

/-- A token before the gap ends where it did. -/
theorem Rewrite.alike {r g g' : Bytes} (h : Rewrite r g g') : Alike (g ++ r) (g' ++ r) := by
  have hfront {b : UInt8} {g₁ t t' : Bytes} (hsep : isSep b) :
      Alike (b :: (g₁ ++ t) ++ r) (b :: (g₁ ++ t') ++ r) := .sep _ _ hsep fun hb => hb ▸ rfl
  cases h with
  | @comment g₁ c w n g₂ h₁ _ _ =>
    cases g₁ with
    | cons b g₁ => exact hfront h₁.head_isSep
    | nil =>
      have hc : isSep (if c = lf then lf else 0x20) ∧ (if c = lf then lf else 0x20) ≠ 0x2F := by
        split <;> decide
      exact .sep _ _ hc.1 fun hslash => absurd hslash hc.2
  | @lines g₁ lines g₂ h₁ _ _ _ =>
    cases g₁ with
    | cons b g₁ => exact hfront h₁.head_isSep
    | nil => exact .sep _ _ rfl fun hslash => absurd hslash (by decide)
  | first _ _ _ => exact .sep _ _ rfl fun hslash => absurd hslash (by decide)

theorem Before.lexes {t p : Bytes} {κ : Context} {ks ks' : List Key} (h : Before t p κ ks)
    (h' : Lexes κ t ks') : Lexes .start (p ++ t) (ks ++ ks') := by
  obtain ⟨rfl, rfl, rfl⟩ | h := h
  · exact h'
  · exact h.lexes h'

theorem Before.exists_lexes {t p : Bytes} {κ : Context} {ks ks' : List Key} (h : Before t p κ ks)
    (h' : Lexes .start (p ++ t) ks') : ∃ ks'', Lexes κ t ks'' := by
  obtain ⟨rfl, rfl, rfl⟩ | h := h
  · exact ⟨_, h'⟩
  · exact h.exists_lexes h'

theorem Before.change {t t' p : Bytes} {κ : Context} {ks : List Key} (h : Before t p κ ks)
    (ht : Alike t t') : Before t' p κ ks := by
  obtain h | h := h
  · exact .inl h
  · exact .inr (h.change ht)

/-! ### Every comment and every blank line stands in a gap -/

/-- Before `t`, the lexer has read `a`. -/
inductive Runs (t : Bytes) : Context → Bytes → Prop where
  | nil (κ) : Runs t κ []
  | step {κ c w n a piece} (h : munch c (w ++ (a ++ t)) = .ok ⟨piece, w, n, a ++ t⟩)
    (rest : Runs t (κ.after ⟨piece, w, n, a ++ t⟩) a) : Runs t κ (c :: (w ++ a))

/-- What is read ends with a gap. -/
theorem Runs.split {t a : Bytes} {κ : Context} (h : Runs t κ a) :
    Gap t a ∨ ∃ p g κ' ks, a = p ++ g ∧ Reaches (g ++ t) κ p κ' ks ∧ Gap t g := by
  induction h with
  | nil κ => exact .inl .nil
  | @step κ c w n a piece h _ ih =>
    obtain hgap | ⟨p, g, κ', ks, rfl, hreach, hgap⟩ := ih
    · cases piece with
      | token type literal raw => exact .inr ⟨c :: w, a, _, _, rfl, .token h, hgap⟩
      | blank => exact .inl (.step h id hgap)
      | newline => exact .inl (.step h id hgap)
      | comment => exact .inl (.step h id hgap)
    · rw [List.append_assoc] at h hreach
      exact .inr ⟨c :: (w ++ p), g, κ', _, by rw [append_piece], .step h hreach, hgap⟩

theorem Runs.before {t a : Bytes} (h : Runs t .start a) :
    ∃ p g κ ks, a = p ++ g ∧ Before (g ++ t) p κ ks ∧ Gap t g := by
  obtain hgap | ⟨p, g, κ, ks, heq, hreach, hgap⟩ := h.split
  · exact ⟨[], a, .start, [], rfl, .inl ⟨rfl, rfl, rfl⟩, hgap⟩
  · exact ⟨p, g, κ, ks, heq, .inr hreach, hgap⟩

/-- A text that has tokens begins with a gap, and a token or the end behind it. -/
theorem Lexes.split {κ : Context} {s : Bytes} {ks : List Key} (h : Lexes κ s ks) :
    ∃ g r, s = g ++ r ∧ Gap r g ∧ Starts r := by
  induction h with
  | done κ => exact ⟨[], [], rfl, .nil, fun _ _ h => nomatch h⟩
  | @step κ c s scan ks h _ ih =>
    by_cases hp : scan.piece.IsToken
    · refine ⟨[], c :: s, rfl, .nil, fun c' s' heq scan' h' => ?_⟩
      cases heq
      cases h.symm.trans h'
      exact hp
    · obtain ⟨g, r, heq, hgap, hstarts⟩ := ih
      have htext := munch_text h
      obtain ⟨piece, w, n, rest⟩ := scan
      dsimp only at htext heq
      subst heq htext
      exact ⟨c :: (w ++ g), r, (append_piece c w g r).symm, .step h hp hgap, hstarts⟩

theorem Gap.lexes_behind {κ : Context} {r g : Bytes} {ks : List Key} (hg : Gap r g)
    (h : Lexes κ (g ++ r) ks) : ∃ κ' ks', Lexes κ' r ks' := by
  induction hg generalizing κ ks with
  | nil => exact ⟨κ, ks, h⟩
  | step hmunch _ _ ih =>
    rw [append_piece] at h
    cases h with
    | step hmunch' hrest =>
      cases hmunch.symm.trans hmunch'
      exact ih hrest

/-- Where a comment stands in a source that has tokens, it is replaced in a gap. -/
theorem exists_rewrite_comment {s a b w : Bytes} {c : UInt8} {n : Nat} {ks : List Key}
    (hs : skipBom s = a ++ c :: (w ++ b)) (hruns : Runs (c :: (w ++ b)) .start a)
    (hc : munch c (w ++ b) = .ok ⟨.comment, w, n, b⟩) (hks : keys s = some ks) :
    ∃ p g g' r κ front, skipBom s = p ++ (g ++ r) ∧
      a ++ (blanked (c :: w) ++ b) = p ++ (g' ++ r) ∧
      Before (g ++ r) p κ front ∧ Starts r ∧ Rewrite r g g' := by
  obtain ⟨p, g₁, κ, front, rfl, hp, hg₁⟩ := hruns.before
  have hlexes := keys_eq_some.mp hks
  rw [hs, List.append_assoc] at hlexes
  obtain ⟨_, hgap⟩ := hp.exists_lexes hlexes
  obtain ⟨κ', _, hcomment⟩ := hg₁.lexes_behind hgap
  cases hcomment with
  | step hc' hb =>
    cases hc.symm.trans hc'
    obtain ⟨g₂, r, rfl, hg₂, hr⟩ := hb.split
    refine ⟨p, g₁ ++ c :: (w ++ g₂), g₁ ++ (blanked (c :: w) ++ g₂), r, κ, front, ?_, ?_, ?_, hr,
      .comment hg₁ hc hg₂⟩
    · rw [hs]
      simp only [List.append_assoc, List.cons_append]
    · simp only [List.append_assoc]
    · simpa only [List.append_assoc, List.cons_append] using hp

/-- Where blank lines stand behind a newline, they are replaced in a gap. -/
theorem exists_rewrite_lines {s a b : Bytes} {lines : List Bytes} {ks : List Key}
    (hs : skipBom s = a ++ lf :: (blankLines lines ++ b))
    (hruns : Runs (lf :: (blankLines lines ++ b)) .start a) (hne : lines ≠ [])
    (hlines : ∀ line ∈ lines, ∀ c ∈ line, isBlank c) (hks : keys s = some ks) :
    ∃ p g g' r κ front, skipBom s = p ++ (g ++ r) ∧ a ++ lf :: lf :: b = p ++ (g' ++ r) ∧
      Before (g ++ r) p κ front ∧ Starts r ∧ Rewrite r g g' := by
  obtain ⟨p, g₁, κ, front, rfl, hp, hg₁⟩ := hruns.before
  have hlexes := keys_eq_some.mp hks
  rw [hs, List.append_assoc] at hlexes
  obtain ⟨_, hgap⟩ := hp.exists_lexes hlexes
  obtain ⟨_, _, hnewline⟩ := hg₁.lexes_behind hgap
  have hblank : Gap b (lf :: blankLines lines) :=
    gap_blanks fun c hc => (List.mem_cons.mp hc).elim .inr (mem_blankLines hlines)
  obtain ⟨_, _, hb⟩ := hblank.lexes_behind hnewline
  obtain ⟨g₂, r, rfl, hg₂, hr⟩ := hb.split
  refine ⟨p, g₁ ++ lf :: (blankLines lines ++ g₂), g₁ ++ lf :: lf :: g₂, r, κ, front, ?_, ?_, ?_,
    hr, .lines hg₁ hne hlines hg₂⟩
  · rw [hs]
    simp only [List.append_assoc, List.cons_append]
  · simp only [List.append_assoc, List.cons_append]
  · simpa only [List.append_assoc, List.cons_append] using hp

/-! ### The theorem -/

/--
A comment is replaced by spaces, or a run of blank lines by one, in the gap `g` behind the token
that `p` ends with.  The tokens stay as they are if and only if no semicolon is wanted there, the
file ends there, or a newline breaks the line in both gaps or in none.
-/
theorem keys_rewrite_iff {s s' p g g' r : Bytes} {κ : Context} {front ks : List Key}
    (hs : skipBom s = p ++ (g ++ r)) (hs' : skipBom s' = p ++ (g' ++ r))
    (hp : Before (g ++ r) p κ front) (hr : Starts r) (hg : Rewrite r g g') (hks : keys s = some ks) :
    keys s' = keys s ↔ (κ.wants → r ≠ [] → (Breaks r g ↔ Breaks r g')) := by
  have hlexes := keys_eq_some.mp hks
  rw [hs] at hlexes
  obtain ⟨_, hgap⟩ := hp.exists_lexes hlexes
  obtain ⟨ks', hrest⟩ := hg.gap.1.exists_lexes hr hgap
  have hrun {g : Bytes} {s : Bytes} (hs : skipBom s = p ++ (g ++ r)) (hp : Before (g ++ r) p κ front)
      (hg : Gap r g) :
      (κ.wants = true ∧ r ≠ [] ∧ Breaks r g → keys s = some (front ++ (.semicolon, [0x3B]) :: ks')) ∧
        (¬(κ.wants = true ∧ r ≠ [] ∧ Breaks r g) → keys s = some (front ++ ks')) := by
    obtain ⟨hbreaks, hnot⟩ := hg.lexes hr hrest
    constructor
    · intro h
      rw [keys_eq_some, hs]
      exact hp.lexes (hbreaks h)
    · intro h
      rw [keys_eq_some, hs]
      exact hp.lexes (hnot h)
  have hne : some (front ++ (.semicolon, [0x3B]) :: ks') ≠ some (front ++ ks') := by
    intro h
    have hlength := congrArg List.length (List.append_cancel_left (Option.some.inj h))
    rw [List.length_cons] at hlength
    omega
  obtain ⟨hold, hold'⟩ := hrun hs hp hg.gap.1
  obtain ⟨hnew, hnew'⟩ := hrun hs' (hp.change hg.alike) hg.gap.2
  by_cases h : κ.wants = true ∧ r ≠ [] ∧ Breaks r g
  · by_cases h' : κ.wants = true ∧ r ≠ [] ∧ Breaks r g'
    · rw [hold h, hnew h']
      exact ⟨fun _ _ _ => ⟨fun _ => h'.2.2, fun _ => h.2.2⟩, fun _ => rfl⟩
    · rw [hold h, hnew' h']
      exact ⟨fun heq => absurd heq.symm hne,
        fun hiff => absurd ⟨h.1, h.2.1, (hiff h.1 h.2.1).mp h.2.2⟩ h'⟩
  · by_cases h' : κ.wants = true ∧ r ≠ [] ∧ Breaks r g'
    · rw [hold' h, hnew h']
      exact ⟨fun heq => absurd heq hne,
        fun hiff => absurd ⟨h'.1, h'.2.1, (hiff h'.1 h'.2.1).mpr h'.2.2⟩ h⟩
    · rw [hold' h, hnew' h']
      exact ⟨fun _ hwants hne => ⟨fun hb => absurd ⟨hwants, hne, hb⟩ h,
        fun hb => absurd ⟨hwants, hne, hb⟩ h'⟩, fun _ => rfl⟩

/-- A statement, a comment at the beginning of the next line, and another statement. -/
def commented : Bytes := ascii "$x\n/**/$y"

theorem commented_gap :
    Before (ascii "\n/**/$y") (ascii "$x") ⟨.ident, 0, 0, 0, []⟩ [(.ident, ascii "$x")] ∧
      Starts (ascii "$y") ∧ Rewrite (ascii "$y") (ascii "\n/**/") (ascii "\n    ") := by
  have hname : munch 0x24 (ascii "x" ++ ascii "\n/**/$y") =
      .ok ⟨.token .ident none false, ascii "x", 0, ascii "\n/**/$y"⟩ := by rfl
  refine ⟨.inr (.token hname), ?_, ?_⟩
  · intro c s heq scan h
    cases heq
    cases h
    trivial
  · exact @Rewrite.comment (ascii "$y") [lf] 0x2F (ascii "**/") 0 []
      (.step (w := []) (munch_lf _) id .nil) (by rfl) .nil

theorem keys_commented : keys commented =
    some [(.ident, ascii "$x"), (.ident, ascii "$y"), (.semicolon, ascii ";"), (.eof, [])] := by
  decide +kernel

/-- Without the comment there is a semicolon that was not there before. -/
theorem comment_hides_semicolon :
    (Before (ascii "\n/**/$y") (ascii "$x") ⟨.ident, 0, 0, 0, []⟩ [(.ident, ascii "$x")] ∧
      Starts (ascii "$y") ∧ Rewrite (ascii "$y") (ascii "\n/**/") (ascii "\n    ")) ∧
    keys commented = some [(.ident, ascii "$x"), (.ident, ascii "$y"), (.semicolon, ascii ";"),
      (.eof, [])] ∧
    keys (ascii "$x\n    $y") = some [(.ident, ascii "$x"), (.semicolon, ascii ";"),
      (.ident, ascii "$y"), (.semicolon, ascii ";"), (.eof, [])] :=
  ⟨commented_gap, keys_commented, by decide +kernel⟩

theorem keys_rewrite_iff_commented :
    keys (ascii "$x\n    $y") = keys commented ↔
      ((⟨.ident, 0, 0, 0, []⟩ : Context).wants → ascii "$y" ≠ [] →
        (Breaks (ascii "$y") (ascii "\n/**/") ↔ Breaks (ascii "$y") (ascii "\n    "))) :=
  keys_rewrite_iff rfl rfl commented_gap.1 commented_gap.2.1 commented_gap.2.2
    keys_commented

end Syntax

end Look
