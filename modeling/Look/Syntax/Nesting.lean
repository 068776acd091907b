/-
There is no bound on the nesting of a tree.

`height` is the depth of a tree.  The counters of the parser are kept by `expression`, `power` and
`unary`, by `statement` and by the binary operators; an assignment calls itself for its value
and counts nothing.  So `$a = $a = ...` is accepted at any length, its tree is as high, and the
parser has called itself as often (`chain_accepted`).
-/
import Look.Syntax.Precedence

namespace Look

namespace Syntax

open Exec

/-! ## The height of a tree -/

mutual

def height : Expr → Nat
  | .arrayLit elements => heightList elements + 1
  | .assocLit pairs => heightPairs pairs + 1
  | .function _ defaults _ _ body => max (heightDefaults defaults) (heightBlock body) + 1
  | .index object key => max (height object) (height key) + 1
  | .unary _ right _ => height right + 1
  | .binary left _ right => max (height left) (height right) + 1
  | .assign _ _ object key value =>
    max (max (heightOption object) (heightOption key)) (height value) + 1
  | .call callee arguments => max (height callee) (heightList arguments) + 1
  | .ternary condition thenExpr elseExpr =>
    max (height condition) (max (height thenExpr) (height elseExpr)) + 1
  | .member object _ => height object + 1
  | .structLit _ fields => heightFields fields + 1
  | _ => 1

def heightOption : Option Expr → Nat
  | none => 0
  | some e => height e

def heightList : List Expr → Nat
  | [] => 0
  | e :: es => max (height e) (heightList es)

def heightPairs : List (Expr × Expr) → Nat
  | [] => 0
  | (key, value) :: pairs => max (max (height key) (height value)) (heightPairs pairs)

def heightFields : List (String × Expr) → Nat
  | [] => 0
  | (_, e) :: fields => max (height e) (heightFields fields)

def heightDefaults : List (Option Expr) → Nat
  | [] => 0
  | e :: es => max (heightOption e) (heightDefaults es)

def heightItems : List (String × Option Expr) → Nat
  | [] => 0
  | (_, e) :: items => max (heightOption e) (heightItems items)

def heightStmt : Stmt → Nat
  | .mk _ kind => heightKind kind

def heightKind : StmtKind → Nat
  | .expression e => height e + 1
  | .print expressions => heightList expressions + 1
  | .write expressions => heightList expressions + 1
  | .ret e => heightOption e + 1
  | .throw e => height e + 1
  | .block statements => heightBlock statements + 1
  | .if condition thenBranch elseBranch =>
    max (height condition) (max (heightBlock thenBranch) (heightBranch elseBranch)) + 1
  | .while condition body => max (height condition) (heightBlock body) + 1
  | .for init condition post body =>
    max (max (heightInit init) (heightOption condition))
      (max (heightOption post) (heightBlock body)) + 1
  | .foreach iterable _ _ body => max (height iterable) (heightBlock body) + 1
  | .tryCatch tryBlock _ catchBlock finallyBlock =>
    max (heightBlock tryBlock) (max (heightBranch catchBlock) (heightBranch finallyBlock)) + 1
  | .switch subject cases => max (height subject) (heightCases cases) + 1
  | .constBlock items => heightItems items + 1
  | .structDecl _ fields => heightItems fields + 1
  | .functionDecl _ _ defaults _ body => max (heightDefaults defaults) (heightBlock body) + 1
  | _ => 1

def heightInit : Option Stmt → Nat
  | none => 0
  | some s => heightStmt s

def heightBlock : List Stmt → Nat
  | [] => 0
  | s :: statements => max (heightStmt s) (heightBlock statements)

def heightBranch : Option (List Stmt) → Nat
  | none => 0
  | some statements => heightBlock statements

def heightCases : List (List Expr × List Stmt) → Nat
  | [] => 0
  | (values, body) :: cases => max (max (heightList values) (heightBlock body)) (heightCases cases)

end

/-! ## A chain of assignments -/

/-- `$a = $a = ... = $a` with `n` assignments. -/
def chain (v : Variable) : Nat → Formula
  | 0 => .var v
  | n + 1 => .assign v (chain v n)

theorem height_chain (v : Variable) (n : Nat) : height (chain v n).expr = n + 1 := by
  induction n with
  | zero => rfl
  | succ n ih =>
    change max (max 0 0) (height (chain v n).expr) + 1 = _
    rw [ih]
    exact congrArg Nat.succ (Nat.max_eq_right (Nat.zero_le _))

theorem chain_head (v : Variable) (n : Nat) : ∃ ts, (chain v n).body = v.token :: ts := by
  cases n <;> exact ⟨_, rfl⟩

section Runs

variable {strtod : Bytes → Double} {v : Variable} {ending : List Token} {p : Option Token}
  {d b : Nat}

theorem ternary_chain (c : Calls) (ts : List Token) :
    ternary strtod c ⟨v.token :: word .assign (ascii "=") :: v.token :: ts, p, 0, 1, d, b⟩ =
      .ok (.var (chars v.lexeme))
        ⟨word .assign (ascii "=") :: v.token :: ts, some v.token, 0, 1, d, b⟩ := by
  rfl

theorem ternary_last (h : Ending ending) (c : Calls) :
    ternary strtod c ⟨v.token :: ending, p, 0, 1, d, b⟩ =
      .ok (.var (chars v.lexeme)) ⟨ending, some v.token, 0, 1, d, b⟩ := by
  cases h <;> rfl

/-- What is left when the first assignment sign has been read. -/
def assigned (v : Variable) : Res Reading ParseError Expr → Res Reading ParseError Expr
  | .ok e s => .ok (.assign (chars v.lexeme) .set none none e) s
  | .error e s => .error e s
  | .timeout => .timeout

theorem assignment_step (c : Calls) (ts : List Token) :
    assignment strtod c ⟨v.token :: word .assign (ascii "=") :: v.token :: ts, p, 0, 1, d, b⟩ =
      assigned v (c.assignment
        ⟨v.token :: ts, some (word .assign (ascii "=")), 0, 1, d, b⟩) := by
  rw [assignment, bind_of_ok (ternary_chain c ts)]
  change (c.assignment >>= fun value => assignTo (.var (chars v.lexeme)) .set value)
    ⟨v.token :: ts, some (word .assign (ascii "=")), 0, 1, d, b⟩ = _
  rw [bind_apply]
  cases c.assignment ⟨v.token :: ts, some (word .assign (ascii "=")), 0, 1, d, b⟩ <;> rfl

/-- The parser reads the chain when it may call itself for each assignment. -/
theorem assignment_chain (h : Ending ending) {n m : Nat} (hn : n ≤ m) :
    assignment strtod (Calls.at strtod m) ⟨(chain v n).body ++ ending, p, 0, 1, d, b⟩ =
      .ok (chain v n).expr ⟨ending, some v.token, 0, 1, d, b⟩ := by
  induction n generalizing m p with
  | zero =>
    change assignment strtod _ ⟨v.token :: ending, p, 0, 1, d, b⟩ = _
    rw [assignment, bind_of_ok (ternary_last h _)]
    cases h <;> rfl
  | succ n ih =>
    obtain ⟨m, rfl⟩ : ∃ k, m = k + 1 := ⟨m - 1, by omega⟩
    obtain ⟨ts, hts⟩ := chain_head v n
    change assignment strtod _
      ⟨v.token :: word .assign (ascii "=") :: ((chain v n).body ++ ending), p, 0, 1, d, b⟩ = _
    have hrest := ih (m := m) (p := some (word .assign (ascii "="))) (by omega)
    rw [hts, List.cons_append] at hrest ⊢
    rw [assignment_step]
    change assigned v (assignment strtod (Calls.at strtod m) _) = _
    rw [hrest]
    rfl

theorem assignment_timeout {n m : Nat} (hn : m < n) :
    assignment strtod (Calls.at strtod m) ⟨(chain v n).body ++ ending, p, 0, 1, d, b⟩ =
      .timeout := by
  induction m generalizing n p with
  | zero =>
    obtain ⟨n, rfl⟩ : ∃ k, n = k + 1 := ⟨n - 1, by omega⟩
    obtain ⟨ts, hts⟩ := chain_head v n
    change assignment strtod _
      ⟨v.token :: word .assign (ascii "=") :: ((chain v n).body ++ ending), p, 0, 1, d, b⟩ = _
    rw [hts, List.cons_append, assignment_step]
    rfl
  | succ m ih =>
    obtain ⟨n, rfl⟩ : ∃ k, n = k + 1 := ⟨n - 1, by omega⟩
    obtain ⟨ts, hts⟩ := chain_head v n
    change assignment strtod _
      ⟨v.token :: word .assign (ascii "=") :: ((chain v n).body ++ ending), p, 0, 1, d, b⟩ = _
    have hrest := ih (n := n) (p := some (word .assign (ascii "="))) (by omega)
    rw [hts, List.cons_append] at hrest ⊢
    rw [assignment_step]
    change assigned v (assignment strtod (Calls.at strtod m) _) = _
    rw [hrest]
    rfl

/-- The state in which `parse` begins. -/
def beginning (tokens : List Token) : Reading := ⟨tokens, none, 0, 0, 0, 0⟩

theorem statement_chain {c : Calls} {ts : List Token} {e : Expr} (h : Ending ending)
    (he : assignment strtod c ⟨v.token :: ts, none, 0, 1, 1, 0⟩ =
      .ok e ⟨ending, some v.token, 0, 1, 1, 0⟩) :
    ∃ s, statement strtod c (beginning (v.token :: ts)) = .ok (.mk 1 (.expression e)) s ∧
      s.ahead = [word .eof []] := by
  have hexpression : expression strtod c ⟨v.token :: ts, none, 0, 0, 1, 0⟩ =
      .ok e ⟨ending, some v.token, 0, 0, 1, 0⟩ := by
    change (assignment strtod c >>= _) ⟨v.token :: ts, none, 0, 1, 1, 0⟩ = _
    rw [bind_of_ok he]
    rfl
  change ∃ s, (expressionStatement strtod c >>= _) ⟨v.token :: ts, none, 0, 0, 1, 0⟩ = _ ∧ _
  rw [bind_apply, expressionStatement, bind_of_ok hexpression]
  cases h <;> exact ⟨_, rfl, rfl⟩

theorem program_chain (h : Ending ending) {n m : Nat} (hn : n ≤ m) :
    ∃ s, program strtod (Calls.at strtod m) (beginning ((chain v n).body ++ ending)) =
      .ok [.mk 1 (.expression (chain v n).expr)] s := by
  obtain ⟨ts, hts⟩ := chain_head v n
  have hassign : assignment strtod (Calls.at strtod m)
      ⟨(chain v n).body ++ ending, none, 0, 1, 1, 0⟩ =
      .ok (chain v n).expr ⟨ending, some v.token, 0, 1, 1, 0⟩ := assignment_chain h hn
  rw [hts, List.cons_append] at hassign ⊢
  obtain ⟨s, hstatement, hs⟩ := statement_chain h hassign
  obtain ⟨ahead, previous, scopeDepth, exprDepth, stmtDepth, binopDepth⟩ := s
  obtain rfl : ahead = [word .eof []] := hs
  refine ⟨⟨[word .eof []], previous, scopeDepth, exprDepth, stmtDepth, binopDepth⟩, ?_⟩
  have hturn : programStep strtod (Calls.at strtod m) [] (beginning (v.token :: (ts ++ ending))) =
      .ok (.next [.mk 1 (.expression (chain v n).expr)])
        ⟨[word .eof []], previous, scopeDepth, exprDepth, stmtDepth, binopDepth⟩ :=
    bind_of_ok hstatement
  change iterate _ ((ts ++ ending).length + 1 + 1) [] _ = _
  rw [iterate, bind_of_ok hturn]
  rfl

theorem program_timeout {n m : Nat} (hn : m < n) :
    program strtod (Calls.at strtod m) (beginning ((chain v n).body ++ ending)) = .timeout := by
  obtain ⟨ts, hts⟩ := chain_head v n
  have htimeout : assignment strtod (Calls.at strtod m)
      ⟨(chain v n).body ++ ending, none, 0, 1, 1, 0⟩ = .timeout := assignment_timeout hn
  rw [hts, List.cons_append] at htimeout ⊢
  have hstatement : statement strtod (Calls.at strtod m) (beginning (v.token :: (ts ++ ending))) =
      .timeout := by
    have hexpression : expression strtod (Calls.at strtod m)
        ⟨v.token :: (ts ++ ending), none, 0, 0, 1, 0⟩ = .timeout := by
      change (assignment strtod (Calls.at strtod m) >>= _)
        ⟨v.token :: (ts ++ ending), none, 0, 1, 1, 0⟩ = _
      rw [bind_apply, htimeout]
    change (expressionStatement strtod (Calls.at strtod m) >>= _)
      ⟨v.token :: (ts ++ ending), none, 0, 0, 1, 0⟩ = _
    rw [bind_apply, expressionStatement, bind_apply, hexpression]
  have hturn : programStep strtod (Calls.at strtod m) [] (beginning (v.token :: (ts ++ ending))) =
      .timeout := by
    change (statement strtod (Calls.at strtod m) >>= _) (beginning (v.token :: (ts ++ ending))) = _
    rw [bind_apply, hstatement]
  change iterate _ ((ts ++ ending).length + 1 + 1) [] _ = _
  rw [iterate, bind_apply, hturn]

/-- The chain is accepted, its tree is as high as the chain is long, and the parser has called
itself as often. -/
theorem chain_accepted (strtod : Bytes → Double) (v : Variable) (n : Nat) :
    ∃ tokens s, scanTokens (chain v n).print = .ok tokens ∧
      parse strtod tokens = .ok [.mk 1 (.expression (chain v n).expr)] s ∧
      ∀ m < n, program strtod (Calls.at strtod m) (beginning tokens) = .timeout := by
  obtain ⟨ending, hending, hscan⟩ := scanTokens_print (chain v n)
  have hlength (n : Nat) : n ≤ (chain v n).body.length := by
    induction n with
    | zero => exact Nat.zero_le _
    | succ n ih => exact Nat.succ_le_succ (Nat.le_succ_of_le ih)
  have hfuel : n ≤ ((chain v n).body ++ ending).length := by
    rw [List.length_append]
    exact Nat.le_add_right_of_le (hlength n)
  obtain ⟨s, hparse⟩ : ∃ s, parse strtod ((chain v n).body ++ ending) =
      .ok [.mk 1 (.expression (chain v n).expr)] s := program_chain hending hfuel
  exact ⟨_, s, hscan, hparse, fun m hm => program_timeout hm⟩

def dollarA : Variable := ⟨ascii "a", List.forall_mem_singleton.mpr rfl⟩

/-- Whatever the bound, there is a source that is accepted, whose tree is higher and for which the
parser has to call itself more often. -/
theorem exists_higher (strtod : Bytes → Double) (D : Nat) :
    ∃ source tokens p s, scanTokens source = .ok tokens ∧ parse strtod tokens = .ok p s ∧
      D < heightBlock p ∧ program strtod (Calls.at strtod D) (beginning tokens) = .timeout := by
  obtain ⟨tokens, s, hscan, hparse, htimeout⟩ := chain_accepted strtod dollarA (D + 1)
  refine ⟨_, tokens, _, s, hscan, hparse, ?_, htimeout D (Nat.lt_succ_self D)⟩
  change D < max (height (chain dollarA (D + 1)).expr + 1) 0
  rw [height_chain]
  omega

/-- No bound is good for every source. -/
theorem no_nesting_bound :
    ¬∃ D, ∀ strtod source tokens p s, scanTokens source = .ok tokens →
      parse strtod tokens = .ok p s → heightBlock p ≤ D := by
  rintro ⟨D, hD⟩
  obtain ⟨tokens, s, hscan, hparse, _⟩ := chain_accepted (fun _ => .zero) dollarA D
  have hle := hD _ _ tokens _ s hscan hparse
  change max (height (chain dollarA D).expr + 1) 0 ≤ D at hle
  rw [height_chain] at hle
  omega

end Runs

end Syntax

end Look
