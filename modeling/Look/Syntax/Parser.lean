/-
The parser: a function for each level of the grammar.

The state holds what has not been read, the token before it and the counters that bound the
nesting.  A parser that calls itself again does so through `Calls`: `Calls.at n` are the
functions that may be entered `n` deep.  Every such call comes behind a token that was read,
so that the number of tokens is deep enough.  What a token does not have in a list that a lexer
has made (the literal of a number) is the exception that the access throws.  `strtod` stands
for the function of the C library.
-/
import Mathlib.Algebra.Group.Int.Defs
import Mathlib.Algebra.Group.Nat.Defs
import Look.Ast
import Look.Data
import Look.Lib.Loop
import Look.Syntax.Lexer

namespace Look

namespace Syntax

/-- `LookParseError`. -/
structure ParseError where
  message : Bytes
  line : Nat
deriving DecidableEq

structure Reading where
  /-- The tokens from `current_` on. -/
  ahead : List Token
  previous : Option Token
  scopeDepth : Nat
  exprDepth : Nat
  stmtDepth : Nat
  binopDepth : Nat

abbrev Parser (α : Type) := Exec Reading ParseError α

open Exec

def eofToken : Token := ⟨.eof, [], none, 0, false⟩

/-! ## Helpers -/

def Reading.peek (s : Reading) : Token := s.ahead.headD eofToken

/-- `advance`: the end of the file stays where it is. -/
def Reading.advance (s : Reading) : Reading :=
  if s.peek.type = .eof then s
  else { s with ahead := s.ahead.drop 1, previous := some s.peek }

def peek : Parser Token := gets Reading.peek

def isAtEnd : Parser Bool := gets fun s => s.peek.type = .eof

def check (type : TokenType) : Parser Bool := gets fun s => s.peek.type ≠ .eof ∧ s.peek.type = type

/-- `check(TokenType::RBRACE) || is_at_end()`. -/
def atBrace : Parser Bool := do
  if ← check .rbrace then pure true else isAtEnd

def advance : Parser Unit := modify Reading.advance

/-- `match`. -/
def accept (type : TokenType) : Parser Bool := do
  if ← check type then
    advance
    pure true
  else pure false

/-- The entry of the first token whose type is in the table; the token is read. -/
def acceptAny {β : Type} (table : List (TokenType × β)) : Parser (Option β) := do
  match ← gets fun s => AssocList.lookup s.peek.type table with
  | some b =>
    advance
    pure (some b)
  | none => pure none

/-- An error at the next token. -/
def fail {α : Type} (message : Bytes) : Parser α := fun s => .error ⟨message, s.peek.line⟩ s

/-- ` (got '...')`. -/
def failGot {α : Type} (message : Bytes) : Parser α := fun s =>
  .error ⟨message ++ ascii " (got '" ++ s.peek.lexeme ++ ascii "')", s.peek.line⟩ s

def consume (type : TokenType) (message : Bytes) : Parser Token := do
  if ← check type then
    let t ← peek
    advance
    pure t
  else failGot message

def consumeSemi : Parser Unit := do
  if ← check .semicolon then advance
  else if ← atBrace then pure ()
  else failGot (ascii "Expect ';'.")

/-- A loop over the tokens; a turn that goes on reads one. -/
def loop {α β : Type} (step : α → Parser (Turn α β)) (a : α) : Parser β := do
  let n ← gets fun s => s.ahead.length
  iterate step (n + 1) a

/-- `while (match(TokenType::SEMICOLON)) {}`. -/
def skipSemicolons : Parser Unit :=
  loop (fun _ => do if ← accept .semicolon then pure (.next ()) else pure (.done ())) ()

/-- What stands behind a token of this type, if one is there. -/
def behind {α : Type} (type : TokenType) (m : Parser α) : Parser (Option α) := do
  if ← accept type then
    let a ← m
    pure (some a)
  else pure none

/-- What stands before a token of this type, if it is not the next one. -/
def before {α : Type} (type : TokenType) (m : Parser α) : Parser (Option α) := do
  if ← check type then pure none
  else
    let a ← m
    pure (some a)

def text (t : Token) : String := chars t.lexeme

/-- `literal.value()`. -/
def literal (t : Token) : Parser Bytes := fun s =>
  match t.literal with
  | some l => .ok l s
  | none => .error ⟨ascii "bad optional access", t.line⟩ s

/-! ## The functions that are called again -/

structure Calls where
  statement : Parser Stmt
  ifStatement : Parser Stmt
  expression : Parser Expr
  assignment : Parser Expr
  ternary : Parser Expr
  power : Parser Expr
  unary : Parser Expr

section Grammar

variable (strtod : Bytes → Double) (c : Calls)

/-! ## Statements that hold statements -/

/-- `block`, behind its opening brace. -/
def block : Parser Block := do
  let statements ← loop (fun statements => do
    if ← atBrace then pure (.done statements)
    else
      skipSemicolons
      if ← atBrace then pure (.done statements)
      else
        let s ← c.statement
        pure (.next (statements ++ [s]))) []
  let _ ← consume .rbrace (ascii "Expect '\x7d' after block.")
  pure statements

/-- A block in a function. -/
def functionBody : Parser Block := do
  modify fun s => { s with scopeDepth := s.scopeDepth + 1 }
  let body ← block c
  modify fun s => { s with scopeDepth := s.scopeDepth - 1 }
  pure body

/-! ## Primary expressions -/

/-- Expressions with commas between them, at least one. -/
def expressions : Parser (List Expr) := loop (fun es => do
  let e ← c.expression
  if ← accept .comma then pure (.next (es ++ [e])) else pure (.done (es ++ [e]))) []

def argumentList : Parser (List Expr) := do
  if ← check .rparen then pure [] else expressions c

structure Parameters where
  names : List String
  defaults : List (Option Expr)
  variadic : Bool

/-- The parameters of a function, between its parentheses. -/
def parameters : Parser Parameters := do
  if ← check .rparen then pure ⟨[], [], false⟩
  else loop (fun ps => do
    if ← accept .ellipsis then
      let p ← consume .ident (ascii "Expect parameter name after '...'.")
      pure (.done (⟨ps.names ++ [text p], ps.defaults ++ [none], true⟩ : Parameters))
    else
      let p ← consume .ident (ascii "Expect parameter name.")
      let value ← behind .assign c.assignment
      let ps : Parameters := ⟨ps.names ++ [text p], ps.defaults ++ [value], false⟩
      if ← accept .comma then pure (.next ps) else pure (.done ps)) (⟨[], [], false⟩ : Parameters)

/-- The names between the parentheses of `use (...)`. -/
def captureNames : Parser (List String) := do
  if ← check .rparen then pure []
  else loop (fun names => do
    let n ← consume .ident (ascii "Expect variable name in use(...).")
    if ← accept .comma then pure (.next (names ++ [text n]))
    else pure (.done (names ++ [text n]))) []

def captures : Parser (List String) := do
  if ← accept .use then
    let _ ← consume .lparen (ascii "Expect '(' after 'use'.")
    let names ← captureNames
    let _ ← consume .rparen (ascii "Expect ')' after use(...).")
    pure names
  else pure []

def functionExpression : Parser Expr := do
  let _ ← consume .lparen (ascii "Expect '(' after 'function'.")
  let ps ← parameters c
  let _ ← consume .rparen (ascii "Expect ')' after parameters.")
  let names ← captures
  if ← accept .fatArrow then
    let e ← c.expression
    pure (.function ps.names ps.defaults names ps.variadic [.mk 0 (.ret (some e))])
  else
    let _ ← consume .lbrace (ascii "Expect '\x7b' or '=>' before function body.")
    let body ← functionBody c
    pure (.function ps.names ps.defaults names ps.variadic body)

/-- An array, behind its opening bracket. -/
def arrayLiteral : Parser Expr := do
  if ← accept .rbracket then pure (.arrayLit [])
  else
    let first ← c.expression
    if ← accept .fatArrow then
      let value ← c.expression
      let pairs ← loop (fun pairs => do
        if ← accept .comma then
          if ← check .rbracket then pure (.done pairs)
          else
            let k ← c.expression
            let _ ← consume .fatArrow (ascii "Expect '=>' in associative array.")
            let v ← c.expression
            pure (.next (pairs ++ [(k, v)]))
        else pure (.done pairs)) [(first, value)]
      let _ ← consume .rbracket (ascii "Expect ']' after array.")
      pure (.assocLit pairs)
    else
      let elements ← loop (fun elements => do
        if ← accept .comma then
          if ← check .rbracket then pure (.done elements)
          else
            let e ← c.expression
            pure (.next (elements ++ [e]))
        else pure (.done elements)) [first]
      let _ ← consume .rbracket (ascii "Expect ']' after array elements.")
      pure (.arrayLit elements)

/-- The fields of a struct literal, behind its opening brace. -/
def structLiteral (name : String) : Parser Expr := do
  let fields ← loop (fun fields => do
    if ← atBrace then pure (.done fields)
    else
      let f ← consume .ident (ascii "Expect field name in struct literal.")
      let _ ← consume .colon (ascii "Expect ':' after field name in struct literal.")
      let e ← c.expression
      let _ ← accept .comma
      pure (.next (fields ++ [(text f, e)]))) []
  let _ ← consume .rbrace (ascii "Expect '\x7d' after struct literal.")
  pure (.structLit name fields)

/-- A name without `$`. -/
def isBare (t : Token) : Bool := t.lexeme.head? ≠ some 0x24

/-- What begins with the name `t`. -/
def named (t : Token) : Parser Expr := do
  if isBare t && (← check .lbrace) then
    advance
    structLiteral c (text t)
  else if ← accept .colonColon then
    let m ← consume .ident (ascii "Expect member name after '::'.")
    pure (.scope (text t) (text m))
  else pure (.var (text t))

/-- `std::stoull` on digits of a base. -/
def stoull (base : Nat) (digits : Bytes) : Option Nat :=
  let v := digits.foldl (fun v d => v * base + (lexHex d).getD 0) 0
  if v < 2 ^ 64 then some v else none

/-- The value of a number without its underscores; `none` is out of range. -/
def numberValue (lit : Bytes) : Option Int64 :=
  match lit with
  | 0x30 :: x :: d :: digits =>
    if x = 0x78 ∨ x = 0x58 then (stoull 16 (d :: digits)).map (Int64.ofInt ↑·)
    else if x = 0x62 ∨ x = 0x42 then (stoull 2 (d :: digits)).map (Int64.ofInt ↑·)
    else decimal lit
  | _ => decimal lit
where
  decimal (lit : Bytes) : Option Int64 :=
    match stoll (chars lit) with
    | .ok i _ => some i
    | _ => none

def dropUnderscores (lit : Bytes) : Bytes := lit.filter (· ≠ 0x5F)

def numberLiteral (t : Token) : Parser Expr := do
  let lit ← literal t
  match numberValue (dropUnderscores lit) with
  | some i => pure (.numberLit i)
  | none => pure (.floatLit (strtod (dropUnderscores lit)))

def primary : Parser Expr := do
  let t ← peek
  match t.type with
  | .iota => do advance; pure .iota
  | .true => do advance; pure (.boolLit true)
  | .false => do advance; pure (.boolLit false)
  | .null => do advance; pure .nullLit
  | .number => do
    advance
    numberLiteral strtod t
  | .floatNum => do
    advance
    let lit ← literal t
    pure (.floatLit (strtod (dropUnderscores lit)))
  | .string => do
    advance
    let lit ← literal t
    pure (.stringLit (chars lit) t.raw)
  | .function => do
    advance
    functionExpression c
  | .lbracket => do
    advance
    arrayLiteral c
  | .ident => do
    advance
    named c t
  | .lparen => do
    advance
    let e ← c.expression
    let _ ← consume .rparen (ascii "Expect ')' after expression.")
    pure e
  | _ => fail (ascii "Unexpected token: '" ++ t.lexeme ++ ascii "'")

/-! ## Postfix and prefix operators -/

def isContainer : Expr → Bool
  | .var _ | .index .. | .call .. | .member .. => true
  | _ => false

/-- A point and a field name: a bare name that no parenthesis and no `::` follow. -/
def memberAhead : List Token → Bool
  | dot :: name :: rest =>
    dot.type = .dot && name.type = .ident && name.lexeme ≠ [] && isBare name &&
      !rest.head?.any fun t => t.type = .lparen || t.type = .colonColon
  | _ => false

/-- `finish_call`, behind the opening parenthesis. -/
def finishCall (callee : Expr) : Parser Expr := do
  let arguments ← argumentList c
  let _ ← consume .rparen (ascii "Expect ')' after arguments.")
  pure (.call callee arguments)

/-- A turn of the loop in `call`. -/
def callStep (e : Expr) : Parser (Turn Expr Expr) := do
  if ← accept .lparen then
    let e ← finishCall c e
    pure (.next e)
  else if ← accept .lbracket then
    let key ← c.expression
    let _ ← consume .rbracket (ascii "Expect ']' after index.")
    pure (.next (.index e key))
  else if (← gets fun s => memberAhead s.ahead) && isContainer e then
    advance
    let field ← consume .ident (ascii "Expect field name after '.'.")
    pure (.next (.member e (text field)))
  else pure (.done e)

def call : Parser Expr := do
  let e ← primary strtod c
  loop (callStep c) e

def postfixExpr : Parser Expr := do
  let e ← call strtod c
  if ← accept .plusPlus then pure (.unary .incr e false)
  else if ← accept .minusMinus then pure (.unary .decr e false)
  else pure e

def maxExprDepth : Nat := 150

def maxBinopChain : Nat := 1000

/-- The guard of `expression`, `power` and `unary`. -/
def exprGuard {α : Type} (m : Parser α) : Parser α := do
  modify fun s => { s with exprDepth := s.exprDepth + 1 }
  if (← gets Reading.exprDepth) > maxExprDepth then
    fail (ascii "Expression nested too deep (max 150)")
  else
    let a ← m
    modify fun s => { s with exprDepth := s.exprDepth - 1 }
    pure a

/-- The operators that stand before their operand. -/
def prefixOps : List (TokenType × UnaryOp) :=
  [(.bang, .not), (.tilde, .bitNot), (.minus, .neg)]

def unary : Parser Expr := exprGuard do
  if ← accept .plusPlus then
    let e ← primary strtod c
    pure (.unary .incr e true)
  else if ← accept .minusMinus then
    let e ← primary strtod c
    pure (.unary .decr e true)
  else
    match ← acceptAny prefixOps with
    | some op => do
      let e ← c.unary
      pure (.unary op e true)
    | none => postfixExpr strtod c

/-! ## Binary operators -/

def power : Parser Expr := exprGuard do
  let e ← unary strtod c
  if ← accept .starStar then
    let right ← c.power
    pure (.binary e .pow right)
  else pure e

def checkBinopChain : Parser Unit := do
  modify fun s => { s with binopDepth := s.binopDepth + 1 }
  if (← gets Reading.binopDepth) > maxBinopChain then
    fail (ascii "Expression chain too long (max 1000 consecutive binary operators)")
  else pure ()

/-- A turn of the loop in `binaryLevel`. -/
def binaryStep (ops : List (TokenType × BinaryOp)) (operand : Parser Expr) (e : Expr) :
    Parser (Turn Expr Expr) := do
  match ← acceptAny ops with
  | some op => do
    checkBinopChain
    let right ← operand
    pure (.next (.binary e op right))
  | none => pure (.done e)

/-- A level of operators that associate to the left. -/
def binaryLevel (ops : List (TokenType × BinaryOp)) (operand : Parser Expr) : Parser Expr := do
  let e ← operand
  loop (binaryStep ops operand) e

def multiplication : Parser Expr :=
  binaryLevel [(.star, .mul), (.slash, .div), (.percent, .mod)] (power strtod c)

def addition : Parser Expr :=
  binaryLevel [(.plus, .add), (.minus, .sub)] (multiplication strtod c)

def concatenation : Parser Expr := binaryLevel [(.dot, .concat)] (addition strtod c)

def shift : Parser Expr :=
  binaryLevel [(.lessLess, .shl), (.greaterGreater, .shr)] (concatenation strtod c)

def comparison : Parser Expr :=
  binaryLevel [(.spaceship, .cmp3), (.greater, .gt), (.greaterEqual, .gte), (.less, .lt),
    (.lessEqual, .lte)] (shift strtod c)

def equality : Parser Expr :=
  binaryLevel [(.equalEqual, .eq), (.bangEqual, .neq)] (comparison strtod c)

def bitwiseAnd : Parser Expr := binaryLevel [(.amp, .bitAnd)] (equality strtod c)

def bitwiseXor : Parser Expr := binaryLevel [(.caret, .bitXor)] (bitwiseAnd strtod c)

def bitwiseOr : Parser Expr := binaryLevel [(.pipe, .bitOr)] (bitwiseXor strtod c)

def logicalAnd : Parser Expr := binaryLevel [(.ampAmp, .and)] (bitwiseOr strtod c)

def logicalOr : Parser Expr := binaryLevel [(.pipePipe, .or)] (logicalAnd strtod c)

def nullCoalescing : Parser Expr :=
  binaryLevel [(.questionQuestion, .coalesce)] (logicalOr strtod c)

/-! ## Ternary and assignment -/

def ternary : Parser Expr := do
  let cond ← nullCoalescing strtod c
  if ← accept .question then
    let thenExpr ← c.ternary
    let _ ← consume .colon (ascii "':' expected in the ternary operator")
    let elseExpr ← c.ternary
    pure (.ternary cond thenExpr elseExpr)
  else pure cond

def assignOps : List (TokenType × AssignOp) :=
  [(.assign, .set), (.plusAssign, .add), (.minusAssign, .sub), (.starAssign, .mul),
    (.slashAssign, .div), (.percentAssign, .mod), (.dotAssign, .concat), (.ampAssign, .bitAnd),
    (.pipeAssign, .bitOr), (.caretAssign, .bitXor)]

/-- An assignment to an element: of a variable, or of what an expression gives. -/
def assignElement (object key : Expr) (op : AssignOp) (value : Expr) : Expr :=
  match object with
  | .var name => .assign name op none (some key) value
  | object => .assign "" op (some object) (some key) value

def assignTo (target : Expr) (op : AssignOp) (value : Expr) : Parser Expr :=
  match target with
  | .index object key => pure (assignElement object key op value)
  | .member object field => pure (assignElement object (.stringLit field false) op value)
  | .var name => pure (.assign name op none none value)
  | _ => fun s =>
    .error ⟨ascii "Invalid assignment target.", (s.previous.map Token.line).getD 0⟩ s

def assignment : Parser Expr := do
  let e ← ternary strtod c
  match ← acceptAny assignOps with
  | some op => do
    let value ← c.assignment
    assignTo e op value
  | none => pure e

def expression : Parser Expr := exprGuard do
  modify fun s => if s.exprDepth = 1 then { s with binopDepth := 0 } else s
  assignment strtod c

/-! ## Statements -/

def expressionStatement : Parser StmtKind := do
  let e ← expression strtod c
  consumeSemi
  pure (.expression e)

/-- `print_statement` and `write_statement`. -/
def outputStatement (name : Bytes) (make : List Expr → StmtKind) : Parser StmtKind := do
  let _ ← consume .lparen (ascii "Expect '(' after '" ++ name ++ ascii "'.")
  let es ← argumentList c
  let _ ← consume .rparen (ascii "Expect ')' after " ++ name ++ ascii " arguments.")
  consumeSemi
  pure (make es)

def useStatement : Parser StmtKind := do
  if ← check .string then
    if (← gets Reading.scopeDepth) > 0 then
      fail (ascii "use \"file\" is only allowed at top-level scope, not inside a function or closure")
    else
      let t ← peek
      advance
      consumeSemi
      pure (.useFile (chars (t.literal.getD t.lexeme)))
  else
    let name ← consume .ident (ascii "Expect module name after 'use'.")
    let al ← behind .as (consume .ident (ascii "Expect alias name after 'as'."))
    consumeSemi
    pure (.use (text name) ((al.map text).getD ""))

/-- What stands behind the first block of an `if`.  A chain is an `if` in a block of its own. -/
def elseBranch : Parser (Option Block) := do
  if ← accept .elseif then
    let s ← c.ifStatement
    pure (some [s])
  else if ← accept .else then
    if ← accept .if then
      let s ← c.ifStatement
      pure (some [s])
    else
      let _ ← consume .lbrace (ascii "Expect '\x7b' after else.")
      let b ← block c
      pure (some b)
  else pure none

def ifStatement : Parser StmtKind := do
  let _ ← consume .lparen (ascii "Expect '(' after 'if'.")
  let cond ← expression strtod c
  let _ ← consume .rparen (ascii "Expect ')' after if condition.")
  let _ ← consume .lbrace (ascii "Expect '\x7b' after if condition.")
  let thenBranch ← block c
  skipSemicolons
  let elseBranch ← elseBranch c
  pure (.if cond thenBranch elseBranch)

def whileStatement : Parser StmtKind := do
  let _ ← consume .lparen (ascii "Expect '(' after 'while'.")
  let cond ← expression strtod c
  let _ ← consume .rparen (ascii "Expect ')' after while condition.")
  let _ ← consume .lbrace (ascii "Expect '\x7b' after while condition.")
  let body ← block c
  pure (.while cond body)

/-- What stands before the first semicolon of a `for`. -/
def forInit : Parser (Option Stmt) := do
  if ← check .semicolon then
    let _ ← consume .semicolon (ascii "Expect ';'.")
    pure none
  else
    let kind ← expressionStatement strtod c
    pure (some (.mk 0 kind))

def forStatement : Parser StmtKind := do
  let _ ← consume .lparen (ascii "Expect '(' after 'for'.")
  let init ← forInit strtod c
  let cond ← before .semicolon (expression strtod c)
  let _ ← consume .semicolon (ascii "Expect ';' after for condition.")
  let post ← before .rparen (expression strtod c)
  let _ ← consume .rparen (ascii "Expect ')' after for clauses.")
  let _ ← consume .lbrace (ascii "Expect '\x7b' after for.")
  let body ← block c
  pure (.for init cond post body)

def foreachStatement : Parser StmtKind := do
  let _ ← consume .lparen (ascii "Expect '(' after 'foreach'.")
  let iterable ← expression strtod c
  let _ ← consume .as (ascii "Expect 'as' in foreach.")
  let first ← consume .ident (ascii "Expect variable name in foreach.")
  let second ← behind .fatArrow (consume .ident (ascii "Expect value variable after '=>'."))
  let _ ← consume .rparen (ascii "Expect ')' after foreach.")
  let _ ← consume .lbrace (ascii "Expect '\x7b' after foreach.")
  let body ← block c
  match second with
  | some v => pure (.foreach iterable (text first) (text v) body)
  | none => pure (.foreach iterable "" (text first) body)

/-- `struct_declaration` and `const_block`: names, each with an expression behind `mark` or not. -/
def members (mark : TokenType) (message : Bytes) : Parser (List (String × Option Expr)) :=
  loop (fun items => do
    if ← atBrace then pure (.done items)
    else
      skipSemicolons
      if ← atBrace then pure (.done items)
      else
        let name ← consume .ident message
        let value ← behind mark c.expression
        let _ ← accept .comma
        pure (.next (items ++ [(text name, value)]))) []

def structDeclaration : Parser StmtKind := do
  let name ← consume .ident (ascii "Expect struct name after 'struct'.")
  let _ ← consume .lbrace (ascii "Expect '\x7b' after struct name.")
  let fields ← members c .colon (ascii "Expect field name.")
  let _ ← consume .rbrace (ascii "Expect '\x7d' after struct fields.")
  pure (.structDecl (text name) fields)

def constBlock : Parser StmtKind := do
  let _ ← consume .lbrace (ascii "Expect '\x7b' after 'const'.")
  let items ← members c .assign (ascii "Expect constant name.")
  let _ ← consume .rbrace (ascii "Expect '\x7d' after const block.")
  pure (.constBlock items)

def functionDeclaration : Parser StmtKind := do
  let name ← consume .ident (ascii "Expect function name.")
  let _ ← consume .lparen (ascii "Expect '(' after function name.")
  let ps ← parameters c
  let _ ← consume .rparen (ascii "Expect ')' after parameters.")
  let _ ← consume .lbrace (ascii "Expect '\x7b' before function body.")
  let body ← functionBody c
  pure (.functionDecl (text name) ps.names ps.defaults ps.variadic body)

/-- No expression can begin here. -/
def endsStatement : Parser Bool := do
  if ← check .semicolon then pure true else atBrace

def returnStatement : Parser StmtKind := do
  if ← endsStatement then
    consumeSemi
    pure (.ret none)
  else
    let e ← expression strtod c
    consumeSemi
    pure (.ret (some e))

def throwStatement : Parser StmtKind := do
  if ← endsStatement then fail (ascii "an expression is required after throw")
  else
    let e ← expression strtod c
    consumeSemi
    pure (.throw e)

/-- The variable and the block of a `catch`. -/
def catchClause : Parser (String × Block) := do
  let _ ← consume .lparen (ascii "Expect '(' after 'catch'.")
  let var ← consume .ident (ascii "Expect variable name in catch.")
  let _ ← consume .rparen (ascii "Expect ')' after catch variable.")
  let _ ← consume .lbrace (ascii "Expect '\x7b' after catch(...).")
  let b ← block c
  pure (text var, b)

def finallyClause : Parser Block := do
  let _ ← consume .lbrace (ascii "Expect '\x7b' after 'finally'.")
  block c

def tryStatement : Parser StmtKind := do
  let _ ← consume .lbrace (ascii "Expect '\x7b' after 'try'.")
  let tryBlock ← block c
  skipSemicolons
  let handler ← behind .catch (catchClause c)
  skipSemicolons
  let last ← behind .finally (finallyClause c)
  pure (.tryCatch tryBlock ((handler.map Prod.fst).getD "") (handler.map Prod.snd) last)

/-- The statements of a case, up to the next case. -/
def caseBody : Parser Block := loop (fun body => do
  if ← check .case then pure (.done body)
  else if ← check .default then pure (.done body)
  else if ← atBrace then pure (.done body)
  else
    let s ← c.statement
    pure (.next (body ++ [s]))) []

def caseValues : Parser (List Expr) := do
  if ← accept .default then
    let _ ← consume .colon (ascii "Expect ':' after 'default'.")
    pure []
  else
    let _ ← consume .case (ascii "Expect 'case' or 'default' in switch.")
    let values ← expressions c
    let _ ← consume .colon (ascii "Expect ':' after case value.")
    pure values

def switchCase : Parser (List Expr × Block) := do
  let values ← caseValues c
  let body ← caseBody c
  pure (values, body)

def switchStatement : Parser StmtKind := do
  let _ ← consume .lparen (ascii "Expect '(' after 'switch'.")
  let subject ← expression strtod c
  let _ ← consume .rparen (ascii "Expect ')' after switch value.")
  let _ ← consume .lbrace (ascii "Expect '\x7b' after switch(...).")
  let cases ← loop (fun cases => do
    if ← atBrace then pure (.done cases)
    else
      let sc ← switchCase c
      pure (.next (cases ++ [sc]))) []
  let _ ← consume .rbrace (ascii "Expect '\x7d' after switch body.")
  pure (.switch subject cases)

/-- What a keyword begins; the keyword has been read. -/
def keywordStatement (type : TokenType) : Option (Parser StmtKind) :=
  match type with
  | .use => some useStatement
  | .print => some (outputStatement c (ascii "print") .print)
  | .write => some (outputStatement c (ascii "write") .write)
  | .if => some (ifStatement strtod c)
  | .while => some (whileStatement strtod c)
  | .for => some (forStatement strtod c)
  | .foreach => some (foreachStatement strtod c)
  | .return => some (returnStatement strtod c)
  | .throw => some (throwStatement strtod c)
  | .function => some (functionDeclaration c)
  | .try => some (tryStatement c)
  | .switch => some (switchStatement strtod c)
  | .struct => some (structDeclaration c)
  | .const => some (constBlock c)
  | .break => some do consumeSemi; pure .break
  | .continue => some do consumeSemi; pure .continue
  | .lbrace => some do
    let b ← block c
    pure (.block b)
  | _ => none

/-- The statement that begins with a token of this type, which is the next one. -/
def statementOf (type : TokenType) : Parser StmtKind :=
  match keywordStatement strtod c type with
  | some m => do
    advance
    m
  | none => expressionStatement strtod c

def maxStmtDepth : Nat := 150

def statement : Parser Stmt := do
  modify fun s => { s with stmtDepth := s.stmtDepth + 1 }
  if (← gets Reading.stmtDepth) > maxStmtDepth then
    fail (ascii "Expression/block nested too deep (max 150)")
  else
    let t ← peek
    let kind ← statementOf strtod c t.type
    modify fun s => { s with stmtDepth := s.stmtDepth - 1 }
    pure (.mk t.line kind)

/-! ## The tree -/

def Calls.at : Nat → Calls
  | 0 => ⟨timeout, timeout, timeout, timeout, timeout, timeout, timeout⟩
  | n + 1 =>
    let c := Calls.at n
    { statement := Syntax.statement strtod c
      ifStatement := do
        let kind ← Syntax.ifStatement strtod c
        pure (.mk 0 kind)
      expression := Syntax.expression strtod c
      assignment := Syntax.assignment strtod c
      ternary := Syntax.ternary strtod c
      power := Syntax.power strtod c
      unary := Syntax.unary strtod c }

/-- A turn of the loop in `parse`. -/
def programStep (statements : Program) : Parser (Turn Program Program) := do
  if ← isAtEnd then pure (.done statements)
  else
    skipSemicolons
    if ← isAtEnd then pure (.done statements)
    else
      let s ← statement strtod c
      pure (.next (statements ++ [s]))

def program : Parser Program := loop (programStep strtod c) []

def parse (tokens : List Token) : Res Reading ParseError Program :=
  program strtod (Calls.at strtod tokens.length) ⟨tokens, none, 0, 0, 0, 0⟩

end Grammar

end Syntax

end Look
