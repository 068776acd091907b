/-
`db::transaction` on one connection.

A call opens a transaction, or a savepoint when `tx_depth` says that a transaction is
open, runs its body and ends what it has opened.  The counter goes down after the body
and before the `COMMIT` or the `RELEASE SAVEPOINT`; when the server rejects that
statement, the handler for exceptions takes one more from the counter and rolls back what
was just to be committed.  Every such rejection costs one for good, and nothing else does.

A tree of calls carries the answers of the server: every statement of a tree is issued at
most once.
-/
import Mathlib.Tactic.ByContra

namespace Look

namespace Db

/-- The statements of `db::transaction`.  A savepoint is `look_sp_` and the number. -/
inductive Sql where
  | begin
  | savepoint (n : Int)
  | commit
  | release (n : Int)
  | rollback
  | rollbackTo (n : Int)
deriving DecidableEq

/-- The statement with which a call at this depth opens its level. -/
def openStmt (txDepth : Int) : Sql :=
  if 0 < txDepth then .savepoint txDepth else .begin

/-- The statement with which a call ends its level after its body has returned. -/
def closeStmt (txDepth : Int) : Sql :=
  if 0 < txDepth then .release txDepth else .commit

/-- The statements of the handler for exceptions.  After `ROLLBACK TO SAVEPOINT` was
rejected the savepoint is not released. -/
def undoStmts (txDepth : Int) (undone : Bool) : List Sql :=
  if 0 < txDepth then
    if undone then [.rollbackTo txDepth, .release txDepth] else [.rollbackTo txDepth]
  else [.rollback]

/-- Which statements of a call the server accepts: the one that opens the level, the one
that ends it after the body, and the rollback.  Whether the `RELEASE SAVEPOINT` after a
rollback is accepted makes no difference. -/
structure Answers where
  opened : Bool
  closed : Bool
  undone : Bool
deriving DecidableEq

/-- What a request does on the connection, as far as `db::transaction` is concerned. -/
inductive Code where
  | done
  /-- An error of the script, or a statement of the body that the server rejects. -/
  | throw
  | seq (a b : Code)
  /-- `try` with a `catch`. -/
  | attempt (a b : Code)
  | transaction (answers : Answers) (body : Code)

/-- A call of `db::transaction`: the number of calls around it, `tx_depth` before and after
it, and the statements that this call has issued itself. -/
structure Call where
  level : Nat
  entry : Int
  exit : Int
  opened : Bool
  issued : List Sql
deriving DecidableEq

/-- Whether the code has returned or has thrown, `tx_depth`, and the calls that have ended. -/
structure Result where
  returned : Bool
  txDepth : Int
  calls : List Call

def run (level : Nat) : Code → Int → Result
  | .done, txDepth => ⟨true, txDepth, []⟩
  | .throw, txDepth => ⟨false, txDepth, []⟩
  | .seq a b, txDepth =>
    let first := run level a txDepth
    if first.returned then
      let second := run level b first.txDepth
      { second with calls := first.calls ++ second.calls }
    else first
  | .attempt a b, txDepth =>
    let first := run level a txDepth
    if first.returned then first
    else
      let second := run level b first.txDepth
      { second with calls := first.calls ++ second.calls }
  | .transaction answers body, txDepth =>
    let opening := openStmt txDepth
    if answers.opened then
      let inner := run (level + 1) body (txDepth + 1)
      let txDepth' := inner.txDepth - 1
      if inner.returned then
        let closing := closeStmt txDepth
        if answers.closed then
          ⟨true, txDepth', inner.calls ++ [⟨level, txDepth, txDepth', true, [opening, closing]⟩]⟩
        else
          -- the exception of the closing statement gets to the same handler
          let txDepth'' := txDepth' - 1
          ⟨false, txDepth'', inner.calls ++ [⟨level, txDepth, txDepth'', true,
            opening :: closing :: undoStmts txDepth answers.undone⟩]⟩
      else
        ⟨false, txDepth', inner.calls ++ [⟨level, txDepth, txDepth', true,
          opening :: undoStmts txDepth answers.undone⟩]⟩
    else ⟨false, txDepth, [⟨level, txDepth, txDepth, false, [opening]⟩]⟩

/-! ## What a call has to do -/

/-- The statements open one level and end it once: by a commit or a release, or by a
rollback. -/
def endsOnce : List Sql → Bool
  | [.begin, .commit] => true
  | [.begin, .rollback] => true
  | [.savepoint n, .release m] => n == m
  | [.savepoint n, .rollbackTo m] => n == m
  | [.savepoint n, .rollbackTo m, .release k] => n == m && n == k
  | _ => false

/-- A call leaves `tx_depth` as it was and not negative, ends the level that it has opened
once, and starts with `BEGIN` when no other call is around it. -/
def Call.ok (c : Call) : Bool :=
  c.exit == c.entry && (decide (0 ≤ c.exit) && (!c.opened || endsOnce c.issued) &&
    (c.level != 0 || c.issued.head? == some .begin))

/-! ## Rejections -/

/-- Whether the code returns. -/
def Code.returns : Code → Bool
  | .done => true
  | .throw => false
  | .seq a b => a.returns && b.returns
  | .attempt a b => a.returns || b.returns
  | .transaction answers body => answers.opened && (body.returns && answers.closed)

/-- The number of calls whose body returns and whose `COMMIT` or `RELEASE SAVEPOINT` is
rejected. -/
def Code.rejections : Code → Nat
  | .done => 0
  | .throw => 0
  | .seq a b => if a.returns then a.rejections + b.rejections else a.rejections
  | .attempt a b => if a.returns then a.rejections else a.rejections + b.rejections
  | .transaction answers body =>
    if answers.opened then
      if body.returns && !answers.closed then body.rejections + 1 else body.rejections
    else 0

section Run

variable {level : Nat} {code : Code} {txDepth : Int}

theorem run_returned (level : Nat) (code : Code) (txDepth : Int) :
    (run level code txDepth).returned = code.returns := by
  induction code generalizing level txDepth with
  | done => rfl
  | throw => rfl
  | seq a b iha ihb =>
    have hfirst := iha level txDepth
    cases h : a.returns <;> rw [h] at hfirst <;> simp [run, Code.returns, hfirst, h, ihb]
  | attempt a b iha ihb =>
    have hfirst := iha level txDepth
    cases h : a.returns <;> rw [h] at hfirst <;> simp [run, Code.returns, hfirst, h, ihb]
  | transaction answers body ih =>
    have hinner := ih (level + 1) (txDepth + 1)
    cases ho : answers.opened <;> cases hc : answers.closed <;> cases h : body.returns <;>
      rw [h] at hinner <;> simp [run, Code.returns, hinner, ho, hc, h]

/-- Every rejection costs one. -/
theorem run_txDepth (level : Nat) (code : Code) (txDepth : Int) :
    (run level code txDepth).txDepth = txDepth - code.rejections := by
  induction code generalizing level txDepth with
  | done => simp [run, Code.rejections]
  | throw => simp [run, Code.rejections]
  | seq a b iha ihb =>
    cases h : a.returns
    · simp [run, run_returned, h, Code.rejections, iha]
    · simp only [run, run_returned, h, Code.rejections, iha, ihb, if_true]
      omega
  | attempt a b iha ihb =>
    cases h : a.returns
    · simp only [run, run_returned, h, Code.rejections, iha, ihb, if_false, Bool.false_eq_true]
      omega
    · simp [run, run_returned, h, Code.rejections, iha]
  | transaction answers body ih =>
    cases ho : answers.opened with
    | false => simp [run, Code.rejections, ho]
    | true =>
      have hinner := ih (level + 1) (txDepth + 1)
      cases h : body.returns <;> cases hc : answers.closed <;>
        simp [run, run_returned, Code.rejections, ho, hc, h, hinner] <;> omega

/-! ## The statements of one call -/

theorem endsOnce_close (txDepth : Int) : endsOnce [openStmt txDepth, closeStmt txDepth] = true := by
  by_cases h : 0 < txDepth <;> simp [openStmt, closeStmt, h, endsOnce]

theorem endsOnce_undo (txDepth : Int) (undone : Bool) :
    endsOnce (openStmt txDepth :: undoStmts txDepth undone) = true := by
  by_cases h : 0 < txDepth <;> cases undone <;> simp [openStmt, undoStmts, h, endsOnce]

theorem not_endsOnce_both (txDepth : Int) (undone : Bool) :
    endsOnce (openStmt txDepth :: closeStmt txDepth :: undoStmts txDepth undone) = false := by
  by_cases h : 0 < txDepth <;> cases undone <;>
    simp [openStmt, closeStmt, undoStmts, h, endsOnce]

/-- A call that ends at the depth of its entry, which is the number of calls around it. -/
theorem Call.ok_of_level {issued : List Sql} {opened : Bool}
    (hends : opened = true → endsOnce issued = true)
    (hhead : issued.head? = some (openStmt level)) :
    (Call.mk level level level opened issued).ok = true := by
  have hbegin : level = 0 → openStmt level = .begin := by
    rintro rfl
    rfl
  cases opened <;> by_cases hl : level = 0 <;> simp_all [Call.ok]

/-! ## Trees of calls -/

/-- Two pieces of code without a rejection, the second at the depth that the first leaves. -/
theorem calls_ok_append {a b : Code} {level : Nat}
    (ha : a.rejections = 0 → ∀ c ∈ (run level a level).calls, c.ok = true)
    (hb : b.rejections = 0 → ∀ c ∈ (run level b level).calls, c.ok = true)
    (hcode : a.rejections + b.rejections = 0) :
    ∀ c ∈ (run level a level).calls ++ (run level b (run level a level).txDepth).calls,
      c.ok = true := by
  have hza : a.rejections = 0 := by omega
  have hdepth := run_txDepth level a level
  rw [hza, Int.natCast_zero, Int.sub_zero] at hdepth
  rw [hdepth]
  exact List.forall_mem_append.mpr ⟨ha hza, hb (by omega)⟩

/-- Without a rejection every call does what it has to. -/
theorem calls_ok (level : Nat) (hcode : code.rejections = 0) :
    ∀ c ∈ (run level code level).calls, c.ok = true := by
  induction code generalizing level with
  | done => nofun
  | throw => nofun
  | seq a b iha ihb =>
    rw [Code.rejections] at hcode
    cases h : a.returns with
    | false =>
      rw [h, if_neg nofun] at hcode
      simpa [run, run_returned, h] using iha level hcode
    | true =>
      rw [h, if_pos rfl] at hcode
      simp only [run, run_returned, h, if_true]
      exact calls_ok_append (iha level) (ihb level) hcode
  | attempt a b iha ihb =>
    rw [Code.rejections] at hcode
    cases h : a.returns with
    | true =>
      rw [h, if_pos rfl] at hcode
      simpa [run, run_returned, h] using iha level hcode
    | false =>
      rw [h, if_neg nofun] at hcode
      simp only [run, run_returned, h, if_false, Bool.false_eq_true]
      exact calls_ok_append (iha level) (ihb level) hcode
  | transaction answers body ih =>
    rw [Code.rejections] at hcode
    cases ho : answers.opened with
    | false =>
      simp only [run, ho, Bool.false_eq_true, if_false]
      exact List.forall_mem_singleton.mpr (Call.ok_of_level nofun rfl)
    | true =>
      rw [ho, if_pos rfl] at hcode
      have hbody : body.rejections = 0 := by
        split at hcode <;> omega
      have hinner := ih (level + 1) hbody
      have hdepth : (run (level + 1) body ((level : Int) + 1)).txDepth - 1 = level := by
        rw [run_txDepth, hbody]
        omega
      cases h : body.returns with
      | false =>
        simp only [run, ho, run_returned, h, hdepth, if_true, if_false, Bool.false_eq_true]
        refine List.forall_mem_append.mpr ⟨hinner, List.forall_mem_singleton.mpr ?_⟩
        exact Call.ok_of_level (fun _ => endsOnce_undo _ _) rfl
      | true =>
        cases hc : answers.closed with
        | false => simp [h, hc] at hcode
        | true =>
          simp only [run, ho, run_returned, h, hc, hdepth, if_true]
          refine List.forall_mem_append.mpr ⟨hinner, List.forall_mem_singleton.mpr ?_⟩
          exact Call.ok_of_level (fun _ => endsOnce_close _) rfl

/-- Two pieces of code, at whatever depth, of which one has a rejection. -/
theorem exists_not_ok_append {a b : Code} {level : Nat} {txDepth txDepth' : Int}
    (ha : a.rejections ≠ 0 → ∃ c ∈ (run level a txDepth).calls, c.ok = false)
    (hb : b.rejections ≠ 0 → ∃ c ∈ (run level b txDepth').calls, c.ok = false)
    (hcode : a.rejections + b.rejections ≠ 0) :
    ∃ c ∈ (run level a txDepth).calls ++ (run level b txDepth').calls, c.ok = false := by
  by_cases hza : a.rejections = 0
  · obtain ⟨c, hc, hok⟩ := hb (by omega)
    exact ⟨c, List.mem_append_right _ hc, hok⟩
  · obtain ⟨c, hc, hok⟩ := ha hza
    exact ⟨c, List.mem_append_left _ hc, hok⟩

/-- The call whose closing statement is rejected ends its level twice. -/
theorem exists_not_ok (level : Nat) (txDepth : Int) (hcode : code.rejections ≠ 0) :
    ∃ c ∈ (run level code txDepth).calls, c.ok = false := by
  induction code generalizing level txDepth with
  | done => exact absurd rfl hcode
  | throw => exact absurd rfl hcode
  | seq a b iha ihb =>
    rw [Code.rejections] at hcode
    cases h : a.returns with
    | false =>
      rw [h, if_neg nofun] at hcode
      simpa [run, run_returned, h] using iha level txDepth hcode
    | true =>
      rw [h, if_pos rfl] at hcode
      simp only [run, run_returned, h, if_true]
      exact exists_not_ok_append (iha level txDepth) (ihb level _) hcode
  | attempt a b iha ihb =>
    rw [Code.rejections] at hcode
    cases h : a.returns with
    | true =>
      rw [h, if_pos rfl] at hcode
      simpa [run, run_returned, h] using iha level txDepth hcode
    | false =>
      rw [h, if_neg nofun] at hcode
      simp only [run, run_returned, h, if_false, Bool.false_eq_true]
      exact exists_not_ok_append (iha level txDepth) (ihb level _) hcode
  | transaction answers body ih =>
    rw [Code.rejections] at hcode
    cases ho : answers.opened with
    | false =>
      rw [ho] at hcode
      exact absurd rfl hcode
    | true =>
      rw [ho, if_pos rfl] at hcode
      by_cases hbody : body.rejections = 0
      · have hrejected : body.returns = true ∧ answers.closed = false := by
          split at hcode
          · rename_i h
            simpa using h
          · exact absurd hbody hcode
        simp only [run, ho, run_returned, hrejected, if_true, if_false, Bool.false_eq_true]
        refine ⟨_, List.mem_append_right _ List.mem_cons_self, ?_⟩
        simp [Call.ok, not_endsOnce_both]
      · obtain ⟨c, hc, hok⟩ := ih (level + 1) (txDepth + 1) hbody
        refine ⟨c, ?_, hok⟩
        cases hret : body.returns <;> cases hclosed : answers.closed <;>
          simp [run, ho, run_returned, hret, hclosed, hc]

/-- Every call of a tree leaves `tx_depth` as it was, ends its level once and starts with
`BEGIN` at the top, exactly when no `COMMIT` or `RELEASE SAVEPOINT` after a body that has
returned is rejected. -/
theorem calls_ok_iff (code : Code) :
    (∀ c ∈ (run 0 code 0).calls, c.ok = true) ↔ code.rejections = 0 := by
  constructor
  · intro hok
    by_contra hcode
    obtain ⟨c, hc, hbad⟩ := exists_not_ok 0 0 hcode
    rw [hok c hc] at hbad
    cases hbad
  · exact fun hcode => calls_ok 0 hcode

/-- The server rejects the `COMMIT` of a call whose body has returned: the call rolls back
after its commit and leaves `tx_depth` at -1. -/
theorem commit_rejected :
    (run 0 (.transaction ⟨true, false, true⟩ .done) 0).calls =
        [⟨0, 0, -1, true, [.begin, .commit, .rollback]⟩] ∧
      ¬ ∀ c ∈ (run 0 (.transaction ⟨true, false, true⟩ .done) 0).calls, c.ok = true := by
  decide

end Run

end Db

end Look
