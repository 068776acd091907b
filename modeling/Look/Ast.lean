/-
The syntax tree, as `ast.h` has it.

Operators are enumerations rather than texts, a block is its list of statements,
and an optional child is an `Option`.  A statement keeps the line it starts on,
which the compiler copies into the line table; the file and column of a location
and the locations of expressions reach nothing that is modelled.
-/
import Look.Value

namespace Look

/-- The unary operators `-`, `!`, `~`, `++` and `--`. -/
inductive UnaryOp where
  | neg
  | not
  | bitNot
  | incr
  | decr
deriving DecidableEq

/-- The binary operators.  The last three do not evaluate both sides. -/
inductive BinaryOp where
  | add
  | sub
  | mul
  | div
  | mod
  | pow
  | concat
  | eq
  | neq
  | lt
  | gt
  | lte
  | gte
  | cmp3
  | bitAnd
  | bitOr
  | bitXor
  | shl
  | shr
  | and
  | or
  | coalesce
deriving DecidableEq

/-- The assignment operators `=`, `+=`, `-=`, `*=`, `/=`, `%=`, `.=`, `&=`, `|=`
and `^=`. -/
inductive AssignOp where
  | set
  | add
  | sub
  | mul
  | div
  | mod
  | concat
  | bitAnd
  | bitOr
  | bitXor
deriving DecidableEq

mutual

inductive Expr where
  | stringLit (value : String) (raw : Bool)
  | numberLit (value : Int64)
  | floatLit (value : Double)
  | boolLit (value : Bool)
  | nullLit
  | arrayLit (elements : List Expr)
  | assocLit (pairs : List (Expr × Expr))
  | function (parameters : List String) (defaults : List (Option Expr)) (captures : List String)
      (variadic : Bool) (body : List Stmt)
  | var (name : String)
  | index (object : Expr) (key : Expr)
  | unary (op : UnaryOp) (right : Expr) (pre : Bool)
  | binary (left : Expr) (op : BinaryOp) (right : Expr)
  | assign (name : String) (op : AssignOp) (object : Option Expr) (key : Option Expr)
      (value : Expr)
  | call (callee : Expr) (arguments : List Expr)
  | ternary (condition : Expr) (thenExpr : Expr) (elseExpr : Expr)
  | scope (moduleName : String) (memberName : String)
  | iota
  | member (object : Expr) (field : String)
  | structLit (structName : String) (fields : List (String × Expr))

/-- A statement and the line it starts on; line 0 is unknown. -/
inductive Stmt where
  | mk (line : Nat) (kind : StmtKind)

inductive StmtKind where
  | expression (e : Expr)
  | print (expressions : List Expr)
  | write (expressions : List Expr)
  | ret (e : Option Expr)
  | throw (e : Expr)
  | break
  | continue
  /- An empty `aliasName` is a `use` without one. -/
  | use (moduleName : String) (aliasName : String)
  | useFile (path : String)
  | block (statements : List Stmt)
  | if (condition : Expr) (thenBranch : List Stmt) (elseBranch : Option (List Stmt))
  | while (condition : Expr) (body : List Stmt)
  | for (init : Option Stmt) (condition : Option Expr) (post : Option Expr) (body : List Stmt)
  /- An empty `keyVar` is a `foreach` without a key. -/
  | foreach (iterable : Expr) (keyVar : String) (valueVar : String) (body : List Stmt)
  /- An empty `catchVar` is a `catch` without a variable. -/
  | tryCatch (tryBlock : List Stmt) (catchVar : String) (catchBlock : Option (List Stmt))
      (finallyBlock : Option (List Stmt))
  /- A case without values is the default. -/
  | switch (subject : Expr) (cases : List (List Expr × List Stmt))
  | constBlock (items : List (String × Option Expr))
  | structDecl (name : String) (fields : List (String × Option Expr))
  | functionDecl (name : String) (parameters : List String) (defaults : List (Option Expr))
      (variadic : Bool) (body : List Stmt)

end

abbrev Block := List Stmt

/-- A parsed source file. -/
abbrev Program := List Stmt

end Look
