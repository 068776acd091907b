/-
What a statement is made of for PostgreSQL, behind its lexer.

`symbols` gives the bytes of a text with what each is a part of; white space and comments are
separators.  A piece stands between separators.  It is cut into tokens where words and quoted texts
end; digits and operators stay single bytes, next to each other as they are written.
-/
import Mathlib.Data.List.SplitBy
import Mathlib.Data.List.DropRight
import Look.Postgres.Lexical

namespace Look

namespace PgLex

open Postgres (Bytes)

def semicolon : UInt8 := 59
def dot : UInt8 := 46

/-- What a byte is a part of. -/
inductive Kind where
  | word
  | name
  /-- A literal, with or without escapes, or a dollar-quoted string. -/
  | string
  | other
deriving DecidableEq

inductive Sym where
  /-- White space or a comment. -/
  | gap
  | byte (kind : Kind) (c : UInt8)
deriving DecidableEq

def texts (kind : Kind) (s : Bytes) : List Sym := s.map (.byte kind)

/-! ## The symbols of a text -/

def codeEmit (word : Bytes) (c : UInt8) : List Sym :=
  if c = quote then [.byte .string c]
  else if c = doubleQuote then [.byte .name c]
  else if c = minus ∨ c = slash then []
  else if identStart c ∨ word ≠ [] ∧ identCont c then [.byte .word c]
  else if c = dollar then []
  else if isSpace c then [.gap]
  else [.byte .other c]

/-- What is known of the text when it ends here. -/
def Mode.pending : Mode → List Sym
  | .afterMinus _ => [.byte .other minus]
  | .afterSlash => [.byte .other slash]
  | .tag t => .byte .other dollar :: texts .word t
  | _ => []

/-- What is known of the text with the next byte. -/
def Mode.emit : Mode → UInt8 → List Sym
  | .code word _, c => codeEmit word c
  | .afterMinus _, c => if c = minus then [.gap] else .byte .other minus :: codeEmit [] c
  | .afterSlash, c => if c = star then [.gap] else .byte .other slash :: codeEmit [] c
  | .tag t, c =>
    if c = dollar then texts .string (dollar :: (t ++ [dollar]))
    else if identStart c ∨ t ≠ [] ∧ tagCont c then []
    else .byte .other dollar :: (texts .word t ++ codeEmit t c)
  | .string _, c | .stringBackslash, c | .dollars .., c => [.byte .string c]
  | .stringQuote _, c => if c = quote then [.byte .string c] else codeEmit [] c
  | .name, c => [.byte .name c]
  | .nameQuote, c => if c = doubleQuote then [.byte .name c] else codeEmit [] c
  | .line _, c => if isNewline c then [.gap] else []
  | .block .., _ => []

def symbolsFrom (m : Mode) : Bytes → List Sym
  | [] => m.pending
  | c :: s => m.emit c ++ symbolsFrom (m.step c) s

def symbols (sql : Bytes) : List Sym := symbolsFrom start sql

/-- The symbols that are known when the text goes on. -/
def emitted (m : Mode) : Bytes → List Sym
  | [] => []
  | c :: s => m.emit c ++ emitted (m.step c) s

theorem symbolsFrom_append (m : Mode) (x y : Bytes) :
    symbolsFrom m (x ++ y) = emitted m x ++ symbolsFrom (x.foldl Mode.step m) y := by
  induction x generalizing m with
  | nil => rfl
  | cons c x ih =>
    rw [List.cons_append, symbolsFrom, ih, emitted, List.append_assoc, List.foldl_cons]

theorem symbols_eq (sql : Bytes) : symbols sql = emitted start sql ++ (run sql).pending := by
  have h := symbolsFrom_append start sql []
  rw [List.append_nil] at h
  exact h

theorem symbols_append (x y : Bytes) :
    symbols (x ++ y) = emitted start x ++ symbolsFrom (run x) y :=
  symbolsFrom_append start x y

/-! ## Pieces and tokens -/

/-- What stands between white space and comments. -/
def pieces (syms : List Sym) : List (List Sym) := (syms.splitOn .gap).filter (· ≠ [])

/-- Two bytes of one token. -/
def glued : Sym → Sym → Bool
  | .byte .word _, .byte .word _ => true
  | .byte .name _, .byte .name _ => true
  | .byte .string _, .byte .string _ => true
  | _, _ => false

def tokens (syms : List Sym) : List (List Sym) := (pieces syms).flatMap (List.splitBy glued)

theorem pieces_append (x y : List Sym) : pieces (x ++ .gap :: y) = pieces x ++ pieces y := by
  rw [pieces, List.splitOn_append_cons_self, List.filter_append, pieces, pieces]

theorem pieces_single {x : List Sym} (hne : x ≠ []) (h : Sym.gap ∉ x) : pieces x = [x] := by
  rw [pieces, List.splitOn_eq_singleton h]
  exact List.filter_cons_of_pos (decide_eq_true hne)

theorem pieces_gaps (x : List Sym) {gaps : List Sym} (h : ∀ s ∈ gaps, s = Sym.gap) :
    pieces (x ++ gaps) = pieces x := by
  induction gaps generalizing x with
  | nil => rw [List.append_nil]
  | cons s gaps ih =>
    rw [List.forall_mem_cons] at h
    have hnil := ih [] h.2
    rw [List.nil_append] at hnil
    rw [h.1, pieces_append, hnil]
    exact List.append_nil _

/-- A list is free of gaps, or one that is free of them stands before its first gap. -/
theorem gap_induction {P : List Sym → Prop} (hplain : ∀ x, Sym.gap ∉ x → P x)
    (hgap : ∀ x y, Sym.gap ∉ x → P y → P (x ++ .gap :: y)) (syms : List Sym) : P syms := by
  induction h : syms.length using Nat.strong_induction_on generalizing syms with
  | _ n ih =>
    by_cases hmem : Sym.gap ∈ syms
    · obtain ⟨x, y, rfl, hx⟩ := List.eq_append_cons_of_mem hmem
      refine hgap x y hx (ih y.length ?_ y rfl)
      rw [← h, List.length_append, List.length_cons]
      omega
    · exact hplain syms hmem

/-- The pieces have every byte. -/
theorem flatten_pieces (syms : List Sym) :
    (pieces syms).flatten = syms.filter (· ≠ .gap) := by
  have hfree : ∀ x : List Sym, Sym.gap ∉ x →
      (pieces x).flatten = x ∧ x.filter (· ≠ .gap) = x := by
    intro x hx
    have hfilter : x.filter (· ≠ .gap) = x :=
      List.filter_eq_self.mpr fun s hs => decide_eq_true fun h => hx (h ▸ hs)
    refine ⟨?_, hfilter⟩
    rcases eq_or_ne x [] with rfl | hne
    · rfl
    · rw [pieces_single hne hx, List.flatten_singleton]
  induction syms using gap_induction with
  | hplain x hx => rw [(hfree x hx).1, (hfree x hx).2]
  | hgap x y hx ih =>
    rw [pieces_append, List.flatten_append, (hfree x hx).1, ih, List.filter_append, (hfree x hx).2,
      List.filter_cons_of_neg (by simp)]

theorem tokens_append_gap (x y : List Sym) : tokens (x ++ .gap :: y) = tokens x ++ tokens y := by
  rw [tokens, pieces_append, List.flatMap_append, tokens, tokens]

theorem glued_gap_right (s : Sym) : glued s .gap = false := by
  cases s with
  | gap => rfl
  | byte kind _ => cases kind <;> rfl

theorem glued_gap_left (s : Sym) : glued .gap s = false := rfl

/-- The tokens are the runs of glued bytes. -/
theorem tokens_eq (syms : List Sym) :
    tokens syms = (syms.splitBy glued).filter (· ≠ [.gap]) := by
  have hfree : ∀ x : List Sym, Sym.gap ∉ x →
      tokens x = (x.splitBy glued).filter (· ≠ [.gap]) := by
    intro x hx
    have hfilter : (x.splitBy glued).filter (· ≠ [.gap]) = x.splitBy glued := by
      refine List.filter_eq_self.mpr fun t ht => decide_eq_true ?_
      rintro rfl
      refine hx ?_
      rw [← List.flatten_splitBy glued x, List.mem_flatten]
      exact ⟨_, ht, List.mem_singleton_self _⟩
    rcases eq_or_ne x [] with rfl | hne
    · rfl
    · rw [hfilter, tokens, pieces_single hne hx, List.flatMap_singleton]
  induction syms using gap_induction with
  | hplain x hx => exact hfree x hx
  | hgap x y hx ih =>
    have hgap : (Sym.gap :: y).splitBy glued = [.gap] :: y.splitBy glued := by
      rw [← List.singleton_append, List.splitBy_append fun s hs t _ => by
        rw [← Option.mem_some_iff.mp hs]
        exact glued_gap_left t]
      rfl
    rw [tokens_append_gap, hfree x hx, ih, List.splitBy_append_cons _ fun s _ => glued_gap_right s,
      hgap, List.filter_append, List.filter_cons_of_neg (by simp)]

/-- Tokens end where two bytes are not glued. -/
theorem tokens_append {x y : List Sym} (h : ∀ s ∈ x.getLast?, ∀ t ∈ y.head?, glued s t = false) :
    tokens (x ++ y) = tokens x ++ tokens y := by
  rw [tokens_eq, tokens_eq, tokens_eq, List.splitBy_append h, List.filter_append]

end PgLex

end Look
