/-
`lk fmt`: the formatter of sources.

The formatter goes through the source line by line.  It knows strings in quotes and comments to
the end of a line, and nothing else: a line inside a string stays as it is, any other line gets
the indentation of the brackets that are open, and of blank lines in a row one is left.  Then
the tokens of the result are compared with those of the source, and when they differ the source
is returned.
-/
import Look.Syntax.Lexer

namespace Look

namespace Syntax

namespace Format

/-- A quote that is open. -/
abbrev Quote := Option UInt8

structure ScanResult where
  delta : Int
  leadingClosers : Nat
  /-- Only closing brackets and blanks so far. -/
  leading : Bool
  inStr : Quote

def isOpener (c : UInt8) : Bool := c = 0x7B || c = 0x5B || c = 0x28

def isCloser (c : UInt8) : Bool := c = 0x7D || c = 0x5D || c = 0x29

/-- The loop of `scan_line`. -/
def scanFrom (r : ScanResult) : Bytes → ScanResult
  | [] => r
  | c :: s =>
    match r.inStr with
    | some quote =>
      if c = 0x5C then
        match s with
        | [] => r
        | _ :: s => scanFrom r s
      else if c = quote then scanFrom { r with inStr := none } s
      else scanFrom r s
    | none =>
      if c = 0x23 then r
      else if c = 0x2F ∧ s.head? = some 0x2F then r
      else if c = 0x22 ∨ c = 0x27 then scanFrom { r with inStr := some c, leading := false } s
      else if isOpener c then scanFrom { r with delta := r.delta + 1, leading := false } s
      else if isCloser c then
        scanFrom { r with
          delta := r.delta - 1
          leadingClosers := if r.leading then r.leadingClosers + 1 else r.leadingClosers } s
      else if c ≠ 0x20 ∧ c ≠ 0x09 then scanFrom { r with leading := false } s
      else scanFrom r s

/-- `scan_line`. -/
def scanLine (s : Bytes) (inStr : Quote) : ScanResult := scanFrom ⟨0, 0, true, inStr⟩ s

def isIndent (c : UInt8) : Bool := c = 0x20 || c = 0x09

def rstrip (s : Bytes) : Bytes := (s.reverse.dropWhile fun c => isIndent c || c = 0x0D).reverse

def lstrip (s : Bytes) : Bytes := s.dropWhile isIndent

/-- The lines as `getline` reads them: behind the last newline there is none. -/
def getLines (src : Bytes) : List Bytes :=
  let pieces := src.splitOn lf
  if pieces.getLast? = some [] then pieces.dropLast else pieces

structure State where
  depth : Int
  inStr : Quote
  blankRun : Nat

def State.start : State := ⟨0, none, 0⟩

/-- A turn of the loop over the lines: what is written, without its newline, and the state. -/
def line (st : State) (raw : Bytes) : Option Bytes × State :=
  match st.inStr with
  | some quote => (some raw, { st with inStr := (scanLine raw (some quote)).inStr, blankRun := 0 })
  | none =>
    let content := rstrip (lstrip raw)
    if content = [] then
      (if st.blankRun + 1 ≤ 1 then some [] else none, { st with blankRun := st.blankRun + 1 })
    else
      let sr := scanLine content none
      let indent := max 0 (st.depth - sr.leadingClosers)
      (some (List.replicate (indent.toNat * 4) 0x20 ++ content),
        ⟨max 0 (st.depth + sr.delta), sr.inStr, 0⟩)

def formatLines (st : State) : List Bytes → List Bytes
  | [] => []
  | raw :: rest =>
    let (written, st) := line st raw
    written.toList ++ formatLines st rest

/-- Of the newlines at the end one is left; the text is given from its end. -/
def popNewlines : Bytes → Bytes
  | [] => []
  | c :: s => if c = lf ∧ s.head? = some lf then popNewlines s else c :: s

def finishFile (out : Bytes) : Bytes :=
  let out := (popNewlines out.reverse).reverse
  if out.getLast? = some lf then out else out ++ [lf]

/-- The text that the loop makes. -/
def layout (src : Bytes) : Bytes :=
  finishFile ((formatLines .start (getLines src)).flatMap (· ++ [lf]))

/-- `same_tokens`: the types and the lexemes. -/
def sameTokens (a b : Bytes) : Bool :=
  match scanTokens a, scanTokens b with
  | .ok ta, .ok tb => ta.map (fun t => (t.type, t.lexeme)) = tb.map fun t => (t.type, t.lexeme)
  | _, _ => false

/-- `look_format_source`: the result and `ok`. -/
def lookFormatSource (src : Bytes) : Bytes × Bool :=
  let out := layout src
  if sameTokens src out then (out, true) else (src, false)

end Format

end Syntax

end Look
