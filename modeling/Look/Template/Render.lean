/-
`TemplateEngine`: values, conditions and rendering.

The recursion of `render` has fuel, because a block is replaced by what the table of blocks
holds for its name, and that may contain blocks again.  `load` is the file system: what
`resolve_path` and the stream give for a path.
-/
import Mathlib.Algebra.Group.Int.Defs
import Mathlib.Algebra.Group.Nat.Defs
import Look.Decimal
import Look.Lib.AssocList
import Look.Template.Parse

namespace Look

namespace Template

/-! ## Values -/

/-- A value as the engine looks at it; `other` is a function, a channel or a connection. -/
inductive Value where
  | none
  | bool (b : Bool)
  | int (i : Int64)
  | float (d : Double)
  | string (s : Bytes)
  | array (elements : List Value)
  | other

/-- `TplContext`. -/
abbrev Ctx := List (Bytes × Value)

/-- A run that ends in a result or in an exception. -/
abbrev Outcome (α : Type) := Exec Unit Error α

open Exec

/-- `"__assoc__"` or `"__struct__"` stands first. -/
def isAssoc : List Value → Bool
  | .string tag :: _ => tag = ascii "__assoc__" || tag = ascii "__struct__"
  | _ => false

/-- The keys and values of an array: what follows its tag, if it has one. -/
def pairs (arr : List Value) : List Value := if isAssoc arr then arr.drop 1 else arr

/-- The value behind a key. -/
def findKey (key : Bytes) : List Value → Option Value
  | k :: v :: rest =>
    match k with
    | .string s => if s = key then some v else findKey key rest
    | _ => findKey key rest
  | _ => none

/-- `std::stoi` of digits. -/
def stoi (key : Bytes) : Outcome Nat :=
  let n := Nat.ofDigitChars 10 (key.map fun c => Char.ofNat c.toNat) 0
  if 2 ^ 31 ≤ n then throw (ascii "stoi") else pure n

def isDigit (c : UInt8) : Bool := 0x30 ≤ c && c ≤ 0x39

/-- A part of a path: a key, or an index. -/
def field (key : Bytes) : Value → Outcome Value
  | .array arr =>
    match findKey key (pairs arr) with
    | some v => pure v
    | none =>
      if key ≠ [] ∧ key.all isDigit then do
        let idx ← stoi key
        pure (arr.getD idx .none)
      else pure .none
  | _ => pure .none

/-- The parts of a path behind the first one. -/
def fields (v : Value) : List Bytes → Outcome Value
  | [] => pure v
  | key :: keys => do
    let v ← field key v
    fields v keys

/-- `resolve`. -/
def resolve (path : Bytes) (ctx : Ctx) : Outcome Value :=
  match (path.splitOn 0x2E).filter (· ≠ []) with
  | [] => pure .none
  | name :: keys =>
    match AssocList.lookup name ctx with
    | some v => fields v keys
    | none => pure .none

section Values

variable [DoubleOps]

/-- `to_str`. -/
def toStr : Value → Bytes
  | .int i => intText i.toInt
  | .float d => ascii (DoubleOps.format d)
  | .bool b => if b then ascii "true" else ascii "false"
  | .string s => s
  | _ => []

/-- `is_truthy`. -/
def isTruthy : Value → Bool
  | .bool b => b
  | .int i => i ≠ 0
  | .float d => !DoubleOps.eq d Double.zero
  | .string s => s ≠ [] && s ≠ ascii "0"
  | .none => false
  | .array arr => !arr.isEmpty
  | .other => true

/-! ## Conditions -/

/-- The operators, the longer ones first. -/
def operators : List Bytes :=
  [ascii ">=", ascii "<=", ascii "!=", ascii "==", ascii ">", ascii "<"]

/-- The first operator outside quotes, with what stands before and behind it. -/
def findOperator (quote : Option UInt8) (before : Bytes) : Bytes → Option (Bytes × Bytes × Bytes)
  | [] => none
  | c :: s =>
    match quote with
    | some q => findOperator (if c = q then none else some q) (before ++ [c]) s
    | none =>
      if c = 0x22 ∨ c = 0x27 then findOperator (some c) (before ++ [c]) s
      else
        match operators.find? (·.isPrefixOf (c :: s)) with
        | some op => some (before, op, (c :: s).drop op.length)
        | none => findOperator none (before ++ [c]) s

/-- `parse_rhs`. -/
def parseRhs (rhs : Bytes) (ctx : Ctx) : Outcome Value :=
  let r := trim rhs
  if 2 ≤ r.length ∧ r.head? = some 0x22 ∧ r.getLast? = some 0x22 then
    pure (.string ((r.drop 1).dropLast))
  else if r.head? = some 0x24 then resolve (r.drop 1) ctx
  else
    match stoll (chars r) with
    | .ok i _ => pure (.int i)
    | _ =>
      match DoubleOps.stod (chars r) with
      | some (d, _) => pure (.float d)
      | none => pure (.string r)

/-- `to_dbl`. -/
def toDbl : Value → Double
  | .int i => DoubleOps.ofInt64 i
  | .float d => d
  | v => ((DoubleOps.stod (chars (toStr v))).map Prod.fst).getD Double.zero

def compare (op : Bytes) (lv rv : Value) : Bool :=
  if op = ascii "==" then toStr lv = toStr rv
  else if op = ascii "!=" then toStr lv ≠ toStr rv
  else if op = ascii ">" then DoubleOps.lt (toDbl rv) (toDbl lv)
  else if op = ascii "<" then DoubleOps.lt (toDbl lv) (toDbl rv)
  else if op = ascii ">=" then DoubleOps.le (toDbl rv) (toDbl lv)
  else DoubleOps.le (toDbl lv) (toDbl rv)

/-- `eval_cond`. -/
def evalCond (condition : Bytes) (ctx : Ctx) : Outcome Bool :=
  let s := trim condition
  let negate := s.head? = some 0x21
  let s := dropDollar (if negate then trim (s.drop 1) else s)
  match findOperator none [] s with
  | some (lhs, op, rhs) => do
    let lv ← resolve (dropDollar (trim lhs)) ctx
    let rv ← parseRhs (trim rhs) ctx
    pure (xor negate (compare op lv rv))
  | none => do
    let v ← resolve s ctx
    pure (xor negate (isTruthy v))

/-! ## Escaping -/

/-- What `html_escape` writes for a byte. -/
def escapeByte (c : UInt8) : Bytes :=
  if c = 0x26 then ascii "&amp;"
  else if c = 0x3C then ascii "&lt;"
  else if c = 0x3E then ascii "&gt;"
  else if c = 0x22 then ascii "&quot;"
  else if c = 0x27 then ascii "&#39;"
  else if c = 0x60 then ascii "&#96;"
  else [c]

def htmlEscape (s : Bytes) : Bytes := s.flatMap escapeByte

/-! ## Blocks -/

/-- `TplBlocks`. -/
abbrev Blocks := List (Bytes × List Node)

mutual

/-- `collect_blocks` on one node: the first definition of a name stays. -/
def collectNode (blocks : Blocks) : Node → Blocks
  | .block name children =>
    collectBlocks
      (if (AssocList.lookup name blocks).isSome then blocks else AssocList.upsert name children blocks)
      children
  | .cond _ children alt => collectBlocks (collectBlocks blocks children) alt
  | .each _ _ children alt => collectBlocks (collectBlocks blocks children) alt
  | _ => blocks

/-- `collect_blocks`. -/
def collectBlocks (blocks : Blocks) : List Node → Blocks
  | [] => blocks
  | n :: ns => collectBlocks (collectNode blocks n) ns

end

/-! ## Rendering -/

/-- The elements that `{#each}` goes through: of an associative array the values. -/
def assocValues : List Value → List Value
  | _ :: v :: rest => v :: assocValues rest
  | _ => []

def eachElements (arr : List Value) : List Value :=
  if isAssoc arr then assocValues (arr.drop 1) else arr

/-- The context of `{#include}` with `data`. -/
def dataContext (ctx : Ctx) : List Value → Ctx
  | k :: v :: rest =>
    match k with
    | .string s => dataContext (AssocList.upsert s v ctx) rest
    | _ => dataContext ctx rest
  | _ => ctx

def includeContext (data : Bytes) (ctx : Ctx) : Outcome Ctx :=
  if data = [] then pure ctx
  else do
    match ← resolve data ctx with
    | .array arr => pure (dataContext [] (pairs arr))
    | _ => pure []

/-- The first node that is no text, if it is `{#extends}`. -/
def parentOf : List Node → Option Bytes
  | .text _ :: ns => parentOf ns
  | .extends path :: _ => some path
  | _ => none

variable (load : Bytes → Except Error Bytes)

/-- The nodes of a file. -/
def loadNodes (path : Bytes) : Outcome (List Node) := fun u =>
  match load path with
  | .error e => .error e u
  | .ok src =>
    match parse path src with
    | .ok (nodes, _) _ => .ok nodes u
    | .error e _ => .error e u
    | .timeout => .timeout

/-- `render_file` and, behind the loading, `render_string`. -/
def renderNodes (render : Option Blocks → List Node → Ctx → Outcome Bytes) (nodes : List Node)
    (ctx : Ctx) : Outcome Bytes :=
  match parentOf nodes with
  | some path => do
    let parent ← loadNodes load path
    render (some (collectBlocks [] nodes)) parent ctx
  | none => render none nodes ctx

/-- A turn of the loop of `render`. -/
def renderNode (render : Option Blocks → List Node → Ctx → Outcome Bytes) (blocks : Option Blocks)
    (ctx : Ctx) : Node → Outcome Bytes
  | .text t => pure t
  | .var path => do
    let v ← resolve path ctx
    pure (htmlEscape (toStr v))
  | .rawVar path => do
    let v ← resolve path ctx
    pure (toStr v)
  | .cond condition children alt => do
    if (← evalCond condition ctx) then render blocks children ctx else render blocks alt ctx
  | .each list item children alt => do
    match ← resolve list ctx with
    | .array arr =>
      if (eachElements arr).isEmpty then render blocks alt ctx
      else do
        let parts ← mapEach (eachElements arr) fun elem =>
          render blocks children (AssocList.upsert item elem ctx)
        pure parts.flatten
    | _ => render blocks alt ctx
  | .extends _ => pure []
  | .block name children =>
    match blocks.bind (AssocList.lookup name) with
    | some content => render blocks content ctx
    | none => render blocks children ctx
  | .include path data => do
    let incCtx ← includeContext data ctx
    tryCatch (do
        let nodes ← loadNodes load path
        renderNodes load render nodes incCtx)
      fun e => throw (ascii "Template include error (" ++ path ++ ascii "): " ++ e)

/-- `TemplateEngine::render`. -/
def render : Nat → Option Blocks → List Node → Ctx → Outcome Bytes
  | 0, _, _, _ => timeout
  | fuel + 1, blocks, nodes, ctx => do
    let parts ← mapEach nodes (renderNode load (render fuel) blocks ctx)
    pure parts.flatten

/-- `render_file`. -/
def renderFile (fuel : Nat) (path : Bytes) (ctx : Ctx) : Outcome Bytes := do
  let nodes ← loadNodes load path
  renderNodes load (render load fuel) nodes ctx

/-- `render_string`. -/
def renderString (fuel : Nat) (src : Bytes) (ctx : Ctx) : Outcome Bytes := fun u =>
  match parse (ascii "<string>") src with
  | .ok (nodes, _) _ => renderNodes load (render load fuel) nodes ctx u
  | .error e _ => .error e u
  | .timeout => .timeout

end Values

end Template

end Look
