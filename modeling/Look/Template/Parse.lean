/-
`TplParser`: templates as text and as nodes.

The state of the parser is the text that is not read yet.  The loop over the text calls
itself for what stands inside a directive, so that its fuel counts bytes on every path: the
length of the text and one more is enough.
-/
import Look.Lib.Exec
import Look.Lib.Find

namespace Look

namespace Template

abbrev Bytes := List UInt8

/-- The text of a `runtime_error`. -/
abbrev Error := Bytes

/-- `TplNode`, with the fields that each kind uses. -/
inductive Node where
  | text (t : Bytes)
  | var (path : Bytes)
  | rawVar (path : Bytes)
  | cond (condition : Bytes) (children alt : List Node)
  | each (list item : Bytes) (children alt : List Node)
  | extends (path : Bytes)
  | block (name : Bytes) (children : List Node)
  | include (path data : Bytes)

/-! ## Texts -/

def isBlank (c : UInt8) : Bool := c = 0x20 || c = 0x09 || c = 0x0D || c = 0x0A

/-- `tpl_trim`. -/
def trim (s : Bytes) : Bytes := ((s.dropWhile isBlank).reverse.dropWhile isBlank).reverse

/-- A leading `$` is taken off. -/
def dropDollar (s : Bytes) : Bytes := if s.head? = some 0x24 then s.drop 1 else s

/-- The quotes around a name are taken off. -/
def unquote (s : Bytes) : Bytes :=
  if 2 ≤ s.length ∧ s.head? = some 0x22 ∧ s.getLast? = some 0x22 then (s.drop 1).dropLast else s

/-! ## Directives -/

/-- What has not been read is the state. -/
abbrev Parser (α : Type) := Exec Bytes Error α

open Exec

variable (origin : Bytes)

/-- `read_until_close`. -/
def readUntilClose (msg : Bytes) : Parser Bytes := fun s =>
  match breakOn [0x7D] s with
  | some (content, rest) => .ok content rest
  | none => .error (ascii "Template parse error in '" ++ origin ++
      ascii "': unclosed '\x7b' near: " ++ msg) []

/-- A byte that no path contains. -/
def isExpressionByte (c : UInt8) : Bool := c ∈ ascii "()+*%/!&|?"

/-- The loop of `validate_var_path` over the bytes of the path. -/
def validateLoop (path : Bytes) : Bytes → Parser Unit
  | [] => pure ()
  | c :: cs =>
    if isExpressionByte c then
      throw (ascii "Template error: '\x7b$" ++ path ++
        ascii "\x7d' cannot contain an expression or function call cannot be used. " ++
        ascii "Do the computation in the .lk file.")
    else if c = 0x3A ∧ (breakOn (ascii "::") path).isSome then
      throw (ascii "Template error: '\x7b$" ++ path ++ ascii "\x7d' cannot contain a module call.")
    else validateLoop path cs

def validateVarPath (path : Bytes) : Parser Unit := validateLoop path path

/-- A variable behind its opening bytes. -/
def variableDirective (kind msg : Bytes) : Parser (Bytes × Bytes) := do
  let content ← readUntilClose origin msg
  validateVarPath (trim content)
  pure (kind, trim content)

/-- A directive behind `{#`: its name and its arguments. -/
def opening : Parser (Bytes × Bytes) := do
  let content ← readUntilClose origin (ascii "#...")
  match breakOn [0x20] (trim content) with
  | some (directive, args) => pure (0x23 :: directive, trim args)
  | none => pure (0x23 :: trim content, [])

/-- A directive behind `{/`. -/
def closing : Parser (Bytes × Bytes) := do
  let content ← readUntilClose origin (ascii "/...")
  pure (0x2F :: trim content, [])

/-- `try_block`: the kind of a directive and its arguments, or nothing where the brace is
text. -/
def tryBlock : Parser (Option (Bytes × Bytes)) := fun s =>
  if ([0x7B, 0x21, 0x24] : Bytes).isPrefixOf s then
    (some <$> variableDirective origin (ascii "rawvar") (ascii "!$...")) (s.drop 3)
  else if ([0x7B, 0x24] : Bytes).isPrefixOf s then
    (some <$> variableDirective origin (ascii "var") (ascii "$...")) (s.drop 2)
  else if ([0x7B, 0x23] : Bytes).isPrefixOf s then (some <$> opening origin) (s.drop 2)
  else if ([0x7B, 0x2F] : Bytes).isPrefixOf s then (some <$> closing origin) (s.drop 2)
  else .ok none s

/-! ## Nodes -/

/-- `{#each $list as $item}`. -/
def eachNames (args : Bytes) : Parser (Bytes × Bytes) :=
  match breakOn (ascii " as ") args with
  | some (list, item) => pure (dropDollar (trim list), dropDollar (trim item))
  | none => throw (ascii "Template error (" ++ origin ++ ascii "): \x7b#each\x7d syntax error. " ++
      ascii "Correct usage: \x7b#each $list as $item\x7d")

/-- `{#include "path" data=$var}`. -/
def includeNode (args : Bytes) : Node :=
  match breakOn (ascii " data=") args with
  | some (path, data) => .include (unquote (trim path)) (dropDollar (trim data))
  | none => .include (unquote args) []

/-- The node of a directive.  `parse` reads nodes up to one of the stops, which it returns,
or up to the end. -/
def directive (parse : List Bytes → Parser (List Node × Bytes)) (kind args : Bytes) :
    Parser Node :=
  if kind = ascii "var" then pure (.var args)
  else if kind = ascii "rawvar" then pure (.rawVar args)
  else if kind = ascii "#if" then do
    let (children, stop) ← parse [ascii "#else", ascii "/if"]
    if stop = ascii "#else" then do
      let (alt, _) ← parse [ascii "/if"]
      pure (.cond args children alt)
    else pure (.cond args children [])
  else if kind = ascii "#each" then do
    let (list, item) ← eachNames origin args
    let (children, stop) ← parse [ascii "#empty", ascii "/each"]
    if stop = ascii "#empty" then do
      let (alt, _) ← parse [ascii "/each"]
      pure (.each list item children alt)
    else pure (.each list item children [])
  else if kind = ascii "#extends" then pure (.extends (unquote args))
  else if kind = ascii "#block" then do
    let (children, _) ← parse [ascii "/block"]
    pure (.block (unquote args) children)
  else if kind = ascii "#include" then pure (includeNode args)
  else if kind.head? = some 0x2F ∨ kind = ascii "#else" ∨ kind = ascii "#empty" then
    throw (ascii "Template error (" ++ origin ++ ascii "): unexpected directive '\x7b" ++ kind ++
      ascii "\x7d'")
  else
    throw (ascii "Template error (" ++ origin ++ ascii "): unknown directive '\x7b" ++ kind ++
      ascii "\x7d'")

/-- `flush_text`. -/
def flush (out : List Node) (buf : Bytes) : List Node :=
  if buf = [] then out else out ++ [.text buf]

/-- The byte that is read becomes text. -/
def nextByte : Parser Unit := modify (List.drop 1)

/-- `parse_nodes`: the loop with `text_buf` and `out`.  The stop is empty at the end. -/
def parseLoop : Nat → List Bytes → Bytes → List Node → Parser (List Node × Bytes)
  | 0, _, _, _ => timeout
  | fuel + 1, stops, buf, out => do
    match ← gets List.head? with
    | none => pure (flush out buf, [])
    | some c =>
      if c ≠ 0x7B then do
        nextByte
        parseLoop fuel stops (buf ++ [c]) out
      else do
        match ← tryBlock origin with
        | none => do
          nextByte
          parseLoop fuel stops (buf ++ [c]) out
        | some (kind, args) =>
          if kind ∈ stops then pure (flush out buf, kind)
          else do
            let node ← directive origin (fun stops => parseLoop fuel stops [] []) kind args
            parseLoop fuel stops [] (flush out buf ++ [node])

/-- `TemplateEngine::parse`. -/
def parse (src : Bytes) : Res Bytes Error (List Node × Bytes) :=
  parseLoop origin (src.length + 1) [] [] [] src

end Template

end Look
