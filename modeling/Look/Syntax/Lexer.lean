/-
The lexer: tokens, and semicolons at the ends of lines.

A byte at a time `scan_token` decides what comes next.  Here that is `munch`, which knows
nothing of the brackets that are open, and what is done with it: a token goes into the list,
and a newline puts a semicolon there when the brackets and the last token ask for one and no
operator goes on behind it (`Context`).  What has not been read is the rest of a list of bytes.
A token keeps its line; its column is left out.
-/
import Look.Json.Decode
import Look.Lib.AssocList

namespace Look

namespace Syntax

abbrev Bytes := List UInt8

/-! ## Tokens -/

inductive TokenType where
  | eof | ident | string | number | floatNum
  | semicolon | lparen | rparen | lbrace | rbrace | lbracket | rbracket | comma | fatArrow
  | colonColon
  | assign | plusAssign | minusAssign | starAssign | slashAssign | percentAssign | dotAssign
  | ampAssign | pipeAssign | caretAssign
  | plus | minus | star | slash | percent | starStar
  | dot
  | plusPlus | minusMinus
  | amp | pipe | caret | tilde | lessLess | greaterGreater
  | bang | ampAmp | pipePipe
  | equalEqual | bangEqual | greater | greaterEqual | less | lessEqual | spaceship
  | questionQuestion | question | colon | ellipsis
  | return | function | print | write | if | elseif | else | while | for | foreach | as
  | break | continue | true | false | null | use | try | catch | finally | throw | global
  | switch | case | default | struct | const | iota
deriving DecidableEq

structure Token where
  type : TokenType
  lexeme : Bytes
  literal : Option Bytes
  line : Nat
  raw : Bool
deriving DecidableEq

def keywords : List (Bytes × TokenType) :=
  [(ascii "if", .if), (ascii "else", .else), (ascii "while", .while), (ascii "for", .for),
    (ascii "foreach", .foreach), (ascii "as", .as), (ascii "break", .break),
    (ascii "continue", .continue), (ascii "function", .function), (ascii "fn", .function),
    (ascii "return", .return), (ascii "print", .print), (ascii "write", .write),
    (ascii "elseif", .elseif), (ascii "true", .true), (ascii "false", .false),
    (ascii "null", .null), (ascii "use", .use), (ascii "global", .global), (ascii "try", .try),
    (ascii "catch", .catch), (ascii "finally", .finally), (ascii "throw", .throw),
    (ascii "switch", .switch), (ascii "case", .case), (ascii "default", .default),
    (ascii "struct", .struct), (ascii "const", .const), (ascii "iota", .iota)]

/-! ## What comes next -/

inductive Piece where
  | token (type : TokenType) (literal : Option Bytes) (raw : Bool)
  | blank
  | newline
  | comment

/-- A piece, what was read of it behind its first byte, the newlines that were counted on the
way, and what is behind it. -/
structure Scan where
  piece : Piece
  text : Bytes
  lines : Nat
  rest : Bytes

inductive LexError where
  | unexpected (c : UInt8)
  | blockComment
  /-- The line is the one where the file ends. -/
  | string (lines : Nat)
  | rawString (lines : Nat)

def lf : UInt8 := 0x0A

def isBlank (c : UInt8) : Bool := c = 0x20 || c = 0x0D || c = 0x09

def isDigit (c : UInt8) : Bool := 0x30 ≤ c && c ≤ 0x39

def isXDigit (c : UInt8) : Bool := (Json.hexval c).isSome

def isAlpha (c : UInt8) : Bool := (0x41 ≤ c && c ≤ 0x5A) || (0x61 ≤ c && c ≤ 0x7A)

/-- A byte of a name. -/
def isName (c : UInt8) : Bool := isAlpha c || isDigit c || c = 0x5F

/-- The operators of one or more bytes: the longer forms in the order in which they are tried,
without their first byte, and what the byte alone is. -/
def operators : List (UInt8 × List (Bytes × TokenType) × TokenType) :=
  [(0x3A, [(ascii ":", .colonColon)], .colon),
    (0x28, [], .lparen), (0x29, [], .rparen), (0x7B, [], .lbrace), (0x7D, [], .rbrace),
    (0x5B, [], .lbracket), (0x5D, [], .rbracket), (0x2C, [], .comma), (0x3B, [], .semicolon),
    (0x7E, [], .tilde),
    (0x2B, [(ascii "=", .plusAssign), (ascii "+", .plusPlus)], .plus),
    (0x2D, [(ascii "=", .minusAssign), (ascii "-", .minusMinus)], .minus),
    (0x2A, [(ascii "=", .starAssign), (ascii "*", .starStar)], .star),
    (0x25, [(ascii "=", .percentAssign)], .percent),
    (0x26, [(ascii "&", .ampAmp), (ascii "=", .ampAssign)], .amp),
    (0x7C, [(ascii "|", .pipePipe), (ascii "=", .pipeAssign)], .pipe),
    (0x5E, [(ascii "=", .caretAssign)], .caret),
    (0x3D, [(ascii "=", .equalEqual), (ascii ">", .fatArrow)], .assign),
    (0x21, [(ascii "=", .bangEqual)], .bang),
    (0x3C, [(ascii "=>", .spaceship), (ascii "=", .lessEqual), (ascii "<", .lessLess)], .less),
    (0x3E, [(ascii "=", .greaterEqual), (ascii ">", .greaterGreater)], .greater),
    (0x3F, [(ascii "?", .questionQuestion)], .question),
    (0x2E, [(ascii "..", .ellipsis), (ascii "=", .dotAssign)], .dot)]

def operator (longer : List (Bytes × TokenType)) (short : TokenType) (s : Bytes) : Scan :=
  match longer.find? fun (suffix, _) => suffix.isPrefixOf s with
  | some (suffix, type) => ⟨.token type none false, suffix, 0, s.drop suffix.length⟩
  | none => ⟨.token short none false, [], 0, s⟩

def lineComment (s : Bytes) : Scan :=
  ⟨.comment, s.takeWhile (· ≠ lf), 0, s.dropWhile (· ≠ lf)⟩

/-- A slash: `/=`, a comment, or the operator. -/
def slash (s : Bytes) : Except LexError Scan :=
  match s with
  | 0x3D :: rest => pure ⟨.token .slashAssign none false, [0x3D], 0, rest⟩
  | 0x2F :: _ => pure (lineComment s)
  | 0x2A :: rest =>
    match breakOn [0x2A, 0x2F] rest with
    | some (body, rest) =>
      pure ⟨.comment, 0x2A :: (body ++ [0x2A, 0x2F]), body.count lf, rest⟩
    | none => throw .blockComment
  | _ => pure ⟨.token .slash none false, [], 0, s⟩

/-! ### Strings -/

/-- `lex_hex`. -/
def lexHex (c : UInt8) : Option Nat := Json.hexval c

/-- `lex_append_utf8`. -/
def lexAppendUtf8 (out : Bytes) (cp : Nat) : Bytes := Json.appendUtf8 out cp

/-- Up to `n` hexadecimal digits; a number if there are so many. -/
def readHex : Nat → Nat → Bytes → Option Nat × Bytes
  | 0, cp, s => (some cp, s)
  | _ + 1, _, [] => (none, [])
  | n + 1, cp, c :: s =>
    match lexHex c with
    | some h => readHex n (cp * 16 + h) s
    | none => (none, c :: s)

theorem length_readHex (n cp : Nat) (s : Bytes) : (readHex n cp s).2.length ≤ s.length := by
  induction n generalizing cp s with
  | zero => exact Nat.le_refl _
  | succ n ih =>
    cases s with
    | nil => exact Nat.le_refl _
    | cons c s =>
      rw [readHex]
      split
      · exact Nat.le_succ_of_le (ih _ s)
      · exact Nat.le_refl _

/-- The code behind `\u`, and what is behind it.  Behind a high surrogate a second escape is
read away, whether it is the low one or not. -/
def unicode (s : Bytes) : Option Nat × Bytes :=
  match readHex 4 0 s with
  | (some cp, 0x5C :: 0x75 :: rest) =>
    if 0xD800 ≤ cp ∧ cp ≤ 0xDBFF then
      match readHex 4 0 rest with
      | (some lo, rest) =>
        if 0xDC00 ≤ lo ∧ lo ≤ 0xDFFF then (some (0x10000 + (cp - 0xD800) * 0x400 + (lo - 0xDC00)), rest)
        else (some cp, rest)
      | (none, rest) => (some cp, rest)
    else (some cp, 0x5C :: 0x75 :: rest)
  | r => r

theorem length_unicode (s : Bytes) : (unicode s).2.length ≤ s.length := by
  have hfirst := length_readHex 4 0 s
  unfold unicode
  split
  · rename_i cp rest heq
    rw [heq, List.length_cons, List.length_cons] at hfirst
    have hsecond := length_readHex 4 0 rest
    split
    · split
      · rename_i lo rest' heq'
        rw [heq'] at hsecond
        split <;> (dsimp only at hsecond ⊢; omega)
      · rename_i rest' heq'
        rw [heq'] at hsecond
        dsimp only at hsecond ⊢
        omega
    · simpa using hfirst
  · exact hfirst

/-- The escapes of one letter. -/
def escape (e : UInt8) : Bytes :=
  if e = 0x6E then [0x0A]
  else if e = 0x74 then [0x09]
  else if e = 0x72 then [0x0D]
  else if e = 0x5C then [0x5C]
  else if e = 0x22 then [0x22]
  else if e = 0x27 then [0x27]
  else if e = 0x24 then [0x24]
  else if e = 0x62 then [0x08]
  else if e = 0x66 then [0x0C]
  else if e = 0x30 then [0x00]
  else [0x5C, e]

/-- The value of what stands between the quotes. -/
def stringValue : Bytes → Bytes
  | [] => []
  | 0x5C :: 0x75 :: s =>
    have := length_unicode s
    match _h : unicode s with
    | (some cp, rest) => lexAppendUtf8 [] cp ++ stringValue rest
    | (none, rest) => ascii "\\u" ++ stringValue rest
  | 0x5C :: e :: s => escape e ++ stringValue s
  | c :: s => c :: stringValue s
termination_by s => s.length
decreasing_by all_goals (simp_all <;> omega)

/-- What stands before the closing quote and behind it.  An escaped byte does not close. -/
def closing (quote : UInt8) : Bytes → Option (Bytes × Bytes)
  | [] => none
  | 0x5C :: e :: s => (closing quote s).map fun (x, y) => (0x5C :: e :: x, y)
  | c :: s => if c = quote then some ([], s) else (closing quote s).map fun (x, y) => (c :: x, y)

/-- The newlines that `string` counts: not those behind a backslash. -/
def stringLines : Bytes → Nat
  | [] => 0
  | 0x5C :: _ :: s => stringLines s
  | c :: s => (if c = lf then 1 else 0) + stringLines s

/-- `string`; between single quotes nothing is inserted later. -/
def string (quote : UInt8) (s : Bytes) : Except LexError Scan :=
  match closing quote s with
  | some (body, rest) =>
    pure ⟨.token .string (some (stringValue body)) (quote = 0x27), body ++ [quote],
      stringLines body, rest⟩
  | none => throw (.string (stringLines s))

/-- `raw_string`. -/
def rawString (s : Bytes) : Except LexError Scan :=
  match breakOn [0x60] s with
  | some (body, rest) => pure ⟨.token .string (some body) false, body ++ [0x60], body.count lf, rest⟩
  | none => throw (.rawString (s.count lf))

/-! ### Numbers and names -/

/-- Digits with underscores. -/
def isGrouped (c : UInt8) : Bool := isDigit c || c = 0x5F

/-- A point with digits behind it. -/
def fraction (s : Bytes) : Bytes × Bytes :=
  match s with
  | 0x2E :: d :: rest =>
    if isDigit d then (0x2E :: (d :: rest).takeWhile isGrouped, (d :: rest).dropWhile isGrouped)
    else ([], s)
  | _ => ([], s)

/-- An exponent with digits; a sign may stand before them. -/
def exponent (s : Bytes) : Bytes × Bytes :=
  match s with
  | e :: d :: rest =>
    if e = 0x65 ∨ e = 0x45 then
      if isDigit d then (e :: (d :: rest).takeWhile isDigit, (d :: rest).dropWhile isDigit)
      else if (d = 0x2B ∨ d = 0x2D) ∧ rest.head?.any isDigit then
        (e :: d :: rest.takeWhile isDigit, rest.dropWhile isDigit)
      else ([], s)
    else ([], s)
  | _ => ([], s)

/-- The number at the front, and what is behind it. -/
def number (s : Bytes) : TokenType × Bytes × Bytes :=
  match s with
  | 0x30 :: x :: digits =>
    if x = 0x78 ∨ x = 0x58 then
      (.number, 0x30 :: x :: digits.takeWhile fun c => isXDigit c || c = 0x5F,
        digits.dropWhile fun c => isXDigit c || c = 0x5F)
    else if x = 0x62 ∨ x = 0x42 then
      (.number, 0x30 :: x :: digits.takeWhile fun c => c = 0x30 || c = 0x31 || c = 0x5F,
        digits.dropWhile fun c => c = 0x30 || c = 0x31 || c = 0x5F)
    else decimal s
  | _ => decimal s
where
  decimal (s : Bytes) : TokenType × Bytes × Bytes :=
    let (fractional, rest) := fraction (s.dropWhile isGrouped)
    let (scale, rest) := exponent rest
    (if fractional = [] ∧ scale = [] then .number else .floatNum,
      s.takeWhile isGrouped ++ fractional ++ scale, rest)

/-- `identifier`; with a `$` a name is never a keyword. -/
def identifier (c : UInt8) (s : Bytes) : Scan :=
  let name := c :: s.takeWhile isName
  ⟨.token ((AssocList.lookup name keywords).getD .ident) none false, s.takeWhile isName, 0,
    s.dropWhile isName⟩

/-- The switch in `scan_token`. -/
def munch (c : UInt8) (s : Bytes) : Except LexError Scan :=
  match AssocList.lookup c operators with
  | some (longer, short) => pure (operator longer short s)
  | none =>
    if c = 0x2F then slash s
    else if c = 0x60 then rawString s
    else if isBlank c then pure ⟨.blank, [], 0, s⟩
    else if c = lf then pure ⟨.newline, [], 0, s⟩
    else if c = 0x23 then pure (lineComment s)
    else if c = 0x22 ∨ c = 0x27 then string c s
    else if c = 0x24 then pure (identifier c s)
    else if isDigit c then
      let (type, text, rest) := number (c :: s)
      pure ⟨.token type (some text) false, text.drop 1, 0, rest⟩
    else if isAlpha c ∨ c = 0x5F then pure (identifier c s)
    else throw (.unexpected c)

/-! ## Semicolons -/

structure Context where
  last : TokenType
  parenDepth : Int
  bracketDepth : Int
  braceDepth : Int
  /-- `brace_depth_` at each open parenthesis, the innermost first. -/
  parenBraceStack : List Int
deriving DecidableEq

def Context.start : Context := ⟨.eof, 0, 0, 0, []⟩

/-- `should_insert_semicolon`. -/
def shouldInsertSemicolon : TokenType → Bool
  | .ident | .number | .floatNum | .string | .true | .false | .null | .rparen | .rbracket
  | .rbrace | .plusPlus | .minusMinus | .break | .continue | .return => true
  | _ => false

/-- The first bytes of a line that goes on with an operator. -/
def continuations : Bytes := ascii ".+-*/%&|^?"

/-- `is_continuation_ahead`. -/
def isContinuationAhead (s : Bytes) : Bool :=
  let s := s.dropWhile isBlank
  let s := if s.head? = some lf then s.drop 1 else s
  ((s.dropWhile fun c => c = 0x20 || c = 0x09).head?).any (· ∈ continuations)

namespace Context

variable (κ : Context)

/-- A semicolon would be in place. -/
def wants : Bool :=
  (κ.parenDepth = 0 || κ.parenBraceStack.head?.any (· < κ.braceDepth)) && κ.bracketDepth = 0 &&
    shouldInsertSemicolon κ.last

/-- `add_token`, and the depths before it. -/
def add (type : TokenType) : Context :=
  match type with
  | .lparen =>
    { κ with
      last := type
      parenBraceStack := κ.braceDepth :: κ.parenBraceStack
      parenDepth := κ.parenDepth + 1 }
  | .rparen =>
    { κ with
      last := type
      parenBraceStack := κ.parenBraceStack.drop 1
      parenDepth := κ.parenDepth - 1 }
  | .lbrace => { κ with last := type, braceDepth := κ.braceDepth + 1 }
  | .rbrace => { κ with last := type, braceDepth := κ.braceDepth - 1 }
  | .lbracket => { κ with last := type, bracketDepth := κ.bracketDepth + 1 }
  | .rbracket => { κ with last := type, bracketDepth := κ.bracketDepth - 1 }
  | _ => { κ with last := type }

/-- A semicolon is inserted when the text goes on with `s`. -/
def inserts (s : Bytes) : Bool := κ.wants && !isContinuationAhead s

end Context

/-! ## The loop -/

structure Lexer where
  context : Context
  line : Nat
  tokens : List Token

def Lexer.push (σ : Lexer) (type : TokenType) (lexeme : Bytes) (literal : Option Bytes)
    (raw : Bool) : Lexer :=
  { σ with
    context := σ.context.add type
    tokens := σ.tokens ++ [⟨type, lexeme, literal, σ.line, raw⟩] }

/-- The semicolon at the end of a line, or of the file. -/
def Lexer.endLine (σ : Lexer) (s : Bytes) : Lexer :=
  if σ.context.inserts s then σ.push .semicolon [0x3B] none false else σ

def errorText (line : Nat) : LexError → Bytes
  | .unexpected c => ascii "Unexpected character: '" ++ [c] ++ ascii "'"
  | .blockComment => ascii "Unterminated block comment starting at line " ++ intText line
  | .string lines => ascii "Unterminated string at line " ++ intText ((line + lines : Nat) : Int)
  | .rawString lines =>
    ascii "Unterminated raw string at line " ++ intText ((line + lines : Nat) : Int)

/-- `scan_token`: the byte `c` before `s` is the next one. -/
def scanToken (σ : Lexer) (c : UInt8) (s : Bytes) : Except Bytes (Lexer × Bytes) :=
  match munch c s with
  | .error e => .error (errorText σ.line e)
  | .ok scan =>
    let σ := { σ with line := σ.line + scan.lines }
    match scan.piece with
    | .token type literal raw => .ok (σ.push type (c :: scan.text) literal raw, scan.rest)
    | .newline =>
      let σ := σ.endLine scan.rest
      .ok ({ σ with line := σ.line + 1 }, scan.rest)
    | .blank => .ok (σ, scan.rest)
    | .comment => .ok (σ, scan.rest)

/-- The loop of `scan_tokens`; every turn reads a byte at least. -/
def scanLoop : Nat → Lexer → Bytes → Except Bytes Lexer
  | 0, σ, _ => .ok σ
  | _ + 1, σ, [] => .ok σ
  | n + 1, σ, c :: s =>
    match scanToken σ c s with
    | .error e => .error e
    | .ok (σ, rest) => scanLoop n σ rest

/-- The constructor: a byte order mark is no part of the text. -/
def skipBom (source : Bytes) : Bytes :=
  if [0xEF, 0xBB, 0xBF].isPrefixOf source then source.drop 3 else source

/-- `scan_tokens`. -/
def scanTokens (source : Bytes) : Except Bytes (List Token) :=
  let s := skipBom source
  match scanLoop s.length ⟨.start, 1, []⟩ s with
  | .error e => .error e
  | .ok σ => .ok ((σ.endLine []).push .eof [] none false).tokens

end Syntax

end Look
