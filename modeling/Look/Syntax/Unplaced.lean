/-
What the lines of the tokens are for.

A line goes into the statements of the tree and into errors, and nothing in the parser looks at
it.  `unplaced` is a tree without its lines; the shadow of a token, of an error and of the
state has line 0 everywhere.
-/
import Look.Lib.Mirror
import Look.Syntax.Parser

namespace Look

namespace Syntax

/-! ## Trees -/

mutual

/-- The tree without the lines of its statements. -/
def unplaced : Expr → Expr
  | .arrayLit elements => .arrayLit (unplacedList elements)
  | .assocLit pairs => .assocLit (unplacedPairs pairs)
  | .function parameters defaults captures variadic body =>
    .function parameters (unplacedDefaults defaults) captures variadic (unplacedBlock body)
  | .index object key => .index (unplaced object) (unplaced key)
  | .unary op right pre => .unary op (unplaced right) pre
  | .binary left op right => .binary (unplaced left) op (unplaced right)
  | .assign name op object key value =>
    .assign name op (unplacedOption object) (unplacedOption key) (unplaced value)
  | .call callee arguments => .call (unplaced callee) (unplacedList arguments)
  | .ternary condition thenExpr elseExpr =>
    .ternary (unplaced condition) (unplaced thenExpr) (unplaced elseExpr)
  | .member object field => .member (unplaced object) field
  | .structLit structName fields => .structLit structName (unplacedFields fields)
  | e => e

def unplacedOption : Option Expr → Option Expr
  | none => none
  | some e => some (unplaced e)

def unplacedList : List Expr → List Expr
  | [] => []
  | e :: es => unplaced e :: unplacedList es

def unplacedPairs : List (Expr × Expr) → List (Expr × Expr)
  | [] => []
  | (key, value) :: pairs => (unplaced key, unplaced value) :: unplacedPairs pairs

def unplacedFields : List (String × Expr) → List (String × Expr)
  | [] => []
  | (name, e) :: fields => (name, unplaced e) :: unplacedFields fields

def unplacedDefaults : List (Option Expr) → List (Option Expr)
  | [] => []
  | e :: es => unplacedOption e :: unplacedDefaults es

def unplacedItems : List (String × Option Expr) → List (String × Option Expr)
  | [] => []
  | (name, e) :: items => (name, unplacedOption e) :: unplacedItems items

def unplacedStmt : Stmt → Stmt
  | .mk _ kind => .mk 0 (unplacedKind kind)

def unplacedKind : StmtKind → StmtKind
  | .expression e => .expression (unplaced e)
  | .print expressions => .print (unplacedList expressions)
  | .write expressions => .write (unplacedList expressions)
  | .ret e => .ret (unplacedOption e)
  | .throw e => .throw (unplaced e)
  | .block statements => .block (unplacedBlock statements)
  | .if condition thenBranch elseBranch =>
    .if (unplaced condition) (unplacedBlock thenBranch) (unplacedBranch elseBranch)
  | .while condition body => .while (unplaced condition) (unplacedBlock body)
  | .for init condition post body =>
    .for (unplacedInit init) (unplacedOption condition) (unplacedOption post) (unplacedBlock body)
  | .foreach iterable keyVar valueVar body =>
    .foreach (unplaced iterable) keyVar valueVar (unplacedBlock body)
  | .tryCatch tryBlock catchVar catchBlock finallyBlock =>
    .tryCatch (unplacedBlock tryBlock) catchVar (unplacedBranch catchBlock)
      (unplacedBranch finallyBlock)
  | .switch subject cases => .switch (unplaced subject) (unplacedCases cases)
  | .constBlock items => .constBlock (unplacedItems items)
  | .structDecl name fields => .structDecl name (unplacedItems fields)
  | .functionDecl name parameters defaults variadic body =>
    .functionDecl name parameters (unplacedDefaults defaults) variadic (unplacedBlock body)
  | s => s

def unplacedInit : Option Stmt → Option Stmt
  | none => none
  | some s => some (unplacedStmt s)

def unplacedBlock : List Stmt → List Stmt
  | [] => []
  | s :: statements => unplacedStmt s :: unplacedBlock statements

def unplacedBranch : Option (List Stmt) → Option (List Stmt)
  | none => none
  | some statements => some (unplacedBlock statements)

def unplacedCases : List (List Expr × List Stmt) → List (List Expr × List Stmt)
  | [] => []
  | (values, body) :: cases => (unplacedList values, unplacedBlock body) :: unplacedCases cases

end

instance : Shadow Expr := ⟨unplaced⟩

instance : Shadow Stmt := ⟨unplacedStmt⟩

instance : Shadow StmtKind := ⟨unplacedKind⟩

@[simp] theorem shadow_expr (e : Expr) : shadow e = unplaced e := rfl

@[simp] theorem shadow_stmt (s : Stmt) : shadow s = unplacedStmt s := rfl

@[simp] theorem shadow_kind (kind : StmtKind) : shadow kind = unplacedKind kind := rfl

@[simp] theorem unplacedOption_eq (e : Option Expr) : unplacedOption e = shadow e := by
  cases e <;> rfl

@[simp] theorem unplacedList_eq (es : List Expr) : unplacedList es = shadow es := by
  induction es with
  | nil => rfl
  | cons e es ih => exact congrArg (unplaced e :: ·) ih

@[simp] theorem unplacedPairs_eq (pairs : List (Expr × Expr)) :
    unplacedPairs pairs = shadow pairs := by
  induction pairs with
  | nil => rfl
  | cons pair pairs ih => exact congrArg ((unplaced pair.1, unplaced pair.2) :: ·) ih

@[simp] theorem unplacedFields_eq (fields : List (String × Expr)) :
    unplacedFields fields = shadow fields := by
  induction fields with
  | nil => rfl
  | cons field fields ih => exact congrArg ((field.1, unplaced field.2) :: ·) ih

@[simp] theorem unplacedDefaults_eq (es : List (Option Expr)) :
    unplacedDefaults es = shadow es := by
  induction es with
  | nil => rfl
  | cons e es ih => rw [unplacedDefaults, unplacedOption_eq, ih, shadow_cons]

@[simp] theorem unplacedItems_eq (items : List (String × Option Expr)) :
    unplacedItems items = shadow items := by
  induction items with
  | nil => rfl
  | cons item items ih =>
    rw [unplacedItems, unplacedOption_eq, ih]
    rfl

@[simp] theorem unplacedInit_eq (s : Option Stmt) : unplacedInit s = shadow s := by
  cases s <;> rfl

@[simp] theorem unplacedBlock_eq (statements : List Stmt) :
    unplacedBlock statements = shadow statements := by
  induction statements with
  | nil => rfl
  | cons s statements ih => exact congrArg (unplacedStmt s :: ·) ih

@[simp] theorem unplacedBranch_eq (branch : Option (List Stmt)) :
    unplacedBranch branch = shadow branch := by
  cases branch with
  | none => rfl
  | some statements => exact congrArg some (unplacedBlock_eq statements)

@[simp] theorem unplacedCases_eq (cases : List (List Expr × List Stmt)) :
    unplacedCases cases = shadow cases := by
  induction cases with
  | nil => rfl
  | cons sc cases ih =>
    rw [unplacedCases, unplacedList_eq, unplacedBlock_eq, ih]
    rfl

attribute [simp] unplaced unplacedStmt unplacedKind

/-! ## The state -/

instance : Shadow UnaryOp := ⟨id⟩

instance : Shadow BinaryOp := ⟨id⟩

instance : Shadow AssignOp := ⟨id⟩

@[simp] theorem shadow_unaryOp (op : UnaryOp) : shadow op = op := rfl

@[simp] theorem shadow_binaryOp (op : BinaryOp) : shadow op = op := rfl

@[simp] theorem shadow_assignOp (op : AssignOp) : shadow op = op := rfl

instance : Shadow Parameters := ⟨fun ps => { ps with defaults := shadow ps.defaults }⟩

instance : Shadow Token := ⟨fun t => { t with line := 0 }⟩

instance : Shadow ParseError := ⟨fun e => { e with line := 0 }⟩

instance : Shadow Reading :=
  ⟨fun s => { s with ahead := shadow s.ahead, previous := shadow s.previous }⟩

end Syntax

end Look
