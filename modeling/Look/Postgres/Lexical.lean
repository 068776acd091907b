/-
The lexical structure of PostgreSQL, as an automaton over the bytes of a statement.

`Mode` says what a byte can be a part of: a string literal, an `E''` string, a quoted name, a
dollar-quoted string, a line comment, a block comment or none of these.  `standard_conforming_strings`
is on, as it is by default.
-/
import Look.Postgres.Client

namespace Look

namespace PgLex

open Postgres (Bytes)

def quote : UInt8 := 39
def doubleQuote : UInt8 := 34
def minus : UInt8 := 45
def slash : UInt8 := 47
def star : UInt8 := 42
def dollar : UInt8 := 36
def backslash : UInt8 := 92
def questionMark : UInt8 := 63

def isNewline (c : UInt8) : Bool := c = 10 || c = 13

def isSpace (c : UInt8) : Bool := c = 32 || (9 ≤ c && c ≤ 13)

/-- `ident_start`. -/
def identStart (c : UInt8) : Bool :=
  65 ≤ c && c ≤ 90 || 97 ≤ c && c ≤ 122 || c = 95 || 128 ≤ c

/-- `dolq_cont`. -/
def tagCont (c : UInt8) : Bool := identStart c || 48 ≤ c && c ≤ 57

/-- `ident_cont`. -/
def identCont (c : UInt8) : Bool := tagCont c || c = dollar

/-- What stands between an `E''` string and a quote that goes on with it. -/
inductive Gap where
  /-- Something else than white space. -/
  | closed
  | sameLine
  | newLine

/-- Where the lexer is. -/
inductive Mode where
  /-- Outside of all others, with the letters of the word that has begun. -/
  | code (word : Bytes) (gap : Gap)
  /-- Behind the first `-` of what may be a comment. -/
  | afterMinus (gap : Gap)
  | afterSlash
  /-- Behind a `$` and letters that may open a dollar-quoted string. -/
  | tag (t : Bytes)
  | string (escapes : Bool)
  /-- Behind a quote that ends the string, unless it is doubled. -/
  | stringQuote (escapes : Bool)
  | stringBackslash
  | name
  | nameQuote
  /-- In a dollar-quoted string, with what stands behind the last `$`. -/
  | dollars (t : Bytes) (since : Option Bytes)
  | line (gap : Gap)
  /-- In comments, one in the other, with the byte before. -/
  | block (depth : Nat) (before : Option UInt8)

/-- White space with a line end lets a string go on. -/
def Gap.step (g : Gap) (c : UInt8) : Gap :=
  match g with
  | .closed => .closed
  | .sameLine => if isNewline c then .newLine else if isSpace c then .sameLine else .closed
  | .newLine => if isSpace c then .newLine else .closed

/-- Whether a quote behind a word or a gap opens a string with escapes. -/
def opensEscapes (word : Bytes) : Gap → Bool
  | .newLine => true
  | _ => word = ascii "E" || word = ascii "e"

def codeStep (word : Bytes) (gap : Gap) (c : UInt8) : Mode :=
  if c = quote then .string (opensEscapes word gap)
  else if c = doubleQuote then .name
  else if c = minus then .afterMinus gap
  else if c = slash then .afterSlash
  else if identStart c ∨ word ≠ [] ∧ identCont c then .code (word ++ [c]) .closed
  else if c = dollar then .tag []
  else .code [] (gap.step c)

def Mode.step : Mode → UInt8 → Mode
  | .code word gap, c => codeStep word gap c
  | .afterMinus gap, c => if c = minus then .line gap else codeStep [] .closed c
  | .afterSlash, c => if c = star then .block 1 none else codeStep [] .closed c
  | .tag t, c =>
    if c = dollar then .dollars t none
    else if identStart c ∨ t ≠ [] ∧ tagCont c then .tag (t ++ [c])
    else codeStep t .closed c
  | .string escapes, c =>
    if c = quote then .stringQuote escapes
    else if escapes ∧ c = backslash then .stringBackslash
    else .string escapes
  | .stringQuote escapes, c =>
    if c = quote then .string escapes
    else codeStep [] (if escapes then .sameLine else .closed) c
  | .stringBackslash, _ => .string true
  | .name, c => if c = doubleQuote then .nameQuote else .name
  | .nameQuote, c => if c = doubleQuote then .name else codeStep [] .closed c
  | .dollars t since, c =>
    if c = dollar then if since = some t then .code [] .closed else .dollars t (some [])
    else .dollars t (since.map (· ++ [c]))
  | .line gap, c => if isNewline c then .code [] (gap.step c) else .line gap
  | .block depth before, c =>
    if c = slash ∧ before = some star then
      if depth ≤ 1 then .code [] .closed else .block (depth - 1) none
    else if c = star ∧ before = some slash then .block (depth + 1) none
    else .block depth (some c)

/-- What comes next is not in a literal, a name or a comment. -/
def Mode.outside : Mode → Bool
  | .code .. | .afterMinus _ | .afterSlash | .tag _ | .stringQuote _ | .nameQuote => true
  | _ => false

def start : Mode := .code [] .closed

/-- Where the lexer is behind a text. -/
def run (sql : Bytes) : Mode := sql.foldl Mode.step start

/-- Every literal, name and comment of the text ends, a line comment with the text. -/
def Closed (sql : Bytes) : Prop :=
  (run sql).outside = true ∨ ∃ gap, run sql = .line gap

end PgLex

end Look
