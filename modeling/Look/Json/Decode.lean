/-
`json_decode_value`, `json_decode_str` and `json_read_u4`.

The decoder walks over the text by a position, which is the state here, and reads a byte by
its index: reading behind the end is a fault of its own, `outside`, so that the absence of
such a read can be proved.  The loops have fuel, one turn for every byte and one more.  A
decoder is defined by the number of levels that are left: `JSON_MAX_DEPTH` is 256, and the
value itself is on a level, too.
-/
import Look.Data
import Look.Lib.AssocList
import Look.Lib.Loop

namespace Look

namespace Json

abbrev Bytes := List UInt8

inductive Fault where
  /-- A byte behind the end of the text is read. -/
  | outside
  | tooDeep
  | parseError
deriving DecidableEq

/-- A function that takes `size_t& i`. -/
abbrev Parser (α : Type) := Exec Nat Fault α

open Exec

/-! ## The text -/

section Text

variable (s : Bytes)

def pos : Parser Nat := gets id

def advance (n : Nat) : Parser Unit := modify (· + n)

/-- `s[i]`. -/
def byteAt (i : Nat) : Parser UInt8 :=
  match s[i]? with
  | some c => pure c
  | none => throw .outside

/-- `i + k < s.size() && p(s[i + k])`. -/
def sees (k : Nat) (p : UInt8 → Bool) : Parser Bool := do
  let i ← pos
  if i + k < s.length then do
    let c ← byteAt s (i + k)
    pure (p c)
  else pure false

/-- `s.substr(start, n)`. -/
def substr (start n : Nat) : Parser Bytes :=
  if start ≤ s.length then pure ((s.drop start).take n) else throw .outside

/-- The turns of a loop over the text. -/
def turns : Nat := s.length + 1

def isWs (c : UInt8) : Bool := c = 0x20 || c = 0x09 || c = 0x0A || c = 0x0D

def wsStep (_ : Unit) : Parser (Turn Unit Unit) := do
  if (← sees s 0 isWs) then do
    advance 1
    pure (.next ())
  else pure (.done ())

def skipWs : Parser Unit := iterate (wsStep s) (turns s) ()

end Text

/-! ## Strings -/

/-- `json_append_utf8`. -/
def appendUtf8 (out : Bytes) (cp : Nat) : Bytes :=
  let c (n : Nat) : UInt8 := UInt8.ofNat n
  if cp < 0x80 then out ++ [c cp]
  else if cp < 0x800 then out ++ [c (0xC0 ||| cp >>> 6), c (0x80 ||| cp &&& 0x3F)]
  else if cp < 0x10000 then
    out ++ [c (0xE0 ||| cp >>> 12), c (0x80 ||| cp >>> 6 &&& 0x3F), c (0x80 ||| cp &&& 0x3F)]
  else
    out ++ [c (0xF0 ||| cp >>> 18), c (0x80 ||| cp >>> 12 &&& 0x3F),
      c (0x80 ||| cp >>> 6 &&& 0x3F), c (0x80 ||| cp &&& 0x3F)]

/-- `json_hexval`; `none` is -1. -/
def hexval (c : UInt8) : Option Nat :=
  if 0x30 ≤ c ∧ c ≤ 0x39 then some (c.toNat - 0x30)
  else if 0x61 ≤ c ∧ c ≤ 0x66 then some (c.toNat - 0x61 + 10)
  else if 0x41 ≤ c ∧ c ≤ 0x46 then some (c.toNat - 0x41 + 10)
  else none

/-- What stands for a backslash and this byte. -/
def unescape (c : UInt8) : UInt8 :=
  if c = 0x6E then 0x0A
  else if c = 0x74 then 0x09
  else if c = 0x72 then 0x0D
  else if c = 0x62 then 0x08
  else if c = 0x66 then 0x0C
  else c

section Strings

variable (s : Bytes)

/-- The loop over the digits at `i`; only behind the last one the position moves. -/
def hexLoop (i : Nat) : List Nat → Nat → Parser (Option Nat)
  | [], cp => do
    advance 4
    pure (some cp)
  | k :: ks, cp => do
    let c ← byteAt s (i + k)
    match hexval c with
    | none => pure none
    | some h => hexLoop i ks (cp <<< 4 ||| h)

/-- `json_read_u4`; `none` is -1. -/
def readU4 : Parser (Option Nat) := do
  let i ← pos
  if s.length < i + 4 then pure none else hexLoop s i [0, 1, 2, 3] 0

def isHigh (cp : Nat) : Bool := 0xD800 ≤ cp && cp ≤ 0xDBFF

def isLow (cp : Nat) : Bool := 0xDC00 ≤ cp && cp ≤ 0xDFFF

/-- The code of a pair of surrogates. -/
def combined (cp lo : Nat) : Nat := 0x10000 + ((cp - 0xD800) <<< 10) + (lo - 0xDC00)

/-- What follows `\u` and four digits: the second half of a pair, if it is one. -/
def lowHalf (cp : Nat) : Parser Nat := do
  let backslash ← sees s 0 (· = 0x5C)
  let u ← sees s 1 (· = 0x75)
  if isHigh cp && backslash && u then do
    let save ← pos
    advance 2
    match ← readU4 s with
    | some lo =>
      if isLow lo then pure (combined cp lo)
      else do
        modify fun _ => save
        pure cp
    | none => do
      modify fun _ => save
      pure cp
  else pure cp

/-- A turn of the loop of `json_decode_str`. -/
def strStep (result : Bytes) : Parser (Turn Bytes Bytes) := do
  if (← sees s 0 (· ≠ 0x22)) then do
    let i ← pos
    let c ← byteAt s i
    if c = 0x5C then do
      advance 1
      if (← sees s 0 fun _ => true) then do
        let e ← byteAt s (i + 1)
        advance 1
        if e = 0x75 then do
          match ← readU4 s with
          | none => do
            advance 1
            pure (.next (result ++ [0x5C, 0x75]))
          | some cp => do
            let cp ← lowHalf s cp
            pure (.next (appendUtf8 result cp))
        else pure (.next (result ++ [unescape e]))
      else pure (.done result)
    else do
      advance 1
      pure (.next (result ++ [c]))
  else pure (.done result)

/-- `json_decode_str`. -/
def decodeStr : Parser Bytes := do
  advance 1
  let result ← iterate (strStep s) (turns s) []
  advance 1
  pure result

end Strings

/-! ## Numbers -/

def isDigit (c : UInt8) : Bool := 0x30 ≤ c && c ≤ 0x39

/-- `.`, `e` or `E`. -/
def isFloatByte (c : UInt8) : Bool := c = 0x2E || c = 0x65 || c = 0x45

def isNumberByte (c : UInt8) : Bool := isDigit c || isFloatByte c || c = 0x2B || c = 0x2D

variable [DoubleOps] (s : Bytes)

/-- A turn of the loop over the bytes of a number. -/
def numberStep (isFloat : Bool) : Parser (Turn Bool Bool) := do
  if (← sees s 0 isNumberByte) then do
    let c ← byteAt s (← pos)
    advance 1
    pure (.next (isFloat || isFloatByte c))
  else pure (.done isFloat)

/-- The value of a number: an integer that does not fit is kept as text. -/
def numberValue (isFloat : Bool) (num : Bytes) : Data :=
  if num = [] ∨ num = [0x2D] then .int 0
  else if isFloat then
    match DoubleOps.stod (chars num) with
    | some (d, _) => .float d
    | none => .int 0
  else
    match stoll (chars num) with
    | .ok i _ => .int i
    | _ => .string num

def number : Parser Data := do
  let start ← pos
  let c ← byteAt s start
  advance (if c = 0x2D then 1 else 0)
  let isFloat ← iterate (numberStep s) (turns s) false
  let stop ← pos
  let num ← substr s start (stop - start)
  pure (numberValue isFloat num)

/-! ## Values -/

/-- `if (i < s.size() && p(s[i])) i++`. -/
def skipIf (p : UInt8 → Bool) : Parser Unit := do
  if (← sees s 0 p) then advance 1 else pure ()

/-- White space, perhaps `sep`, and white space. -/
def separator (sep : UInt8) : Parser Unit := do
  skipWs s
  skipIf s (· = sep)
  skipWs s

/-- A turn of the loop over the elements of an array. -/
def elementStep (value : Parser Data) (arr : List Data) : Parser (Turn (List Data) (List Data)) := do
  if (← sees s 0 (· ≠ 0x5D)) then do
    let before ← pos
    let val ← value
    separator s 0x2C
    if (← pos) = before then throw .parseError else pure (.next (arr ++ [val]))
  else pure (.done arr)

/-- A turn of the loop over the members of an object.  A key that is there already keeps its
place and gets the new value. -/
def memberStep (value : Parser Data) (arr : List (Bytes × Data)) :
    Parser (Turn (List (Bytes × Data)) (List (Bytes × Data))) := do
  if (← sees s 0 (· ≠ 0x7D)) then do
    let before ← pos
    if (← byteAt s before) ≠ 0x22 then throw .parseError
    else do
      let key ← decodeStr s
      separator s 0x3A
      let val ← value
      separator s 0x2C
      if (← pos) = before then throw .parseError
      else pure (.next (AssocList.upsert key val arr))
  else pure (.done arr)

/-- The closing bracket, if the text does not end before. -/
def close : Parser Unit := skipIf s fun _ => true

def array (value : Parser Data) : Parser Data := do
  advance 1
  skipWs s
  let arr ← iterate (elementStep s value) (turns s) []
  close s
  pure (.array arr)

def object (value : Parser Data) : Parser Data := do
  advance 1
  skipWs s
  let arr ← iterate (memberStep s value) (turns s) []
  close s
  pure (Data.assoc arr)

/-- `true`, `false`, `null` or a number. -/
def scalar (c : UInt8) : Parser Data := do
  let i ← pos
  if (← substr s i 4) = ascii "true" then do
    advance 4
    pure (.bool true)
  else if (← substr s i 5) = ascii "false" then do
    advance 5
    pure (.bool false)
  else if (← substr s i 4) = ascii "null" then do
    advance 4
    pure .none
  else if c ≠ 0x2D ∧ ¬isDigit c then throw .parseError
  else number s

/-- `json_decode_value`, with the number of levels that are left. -/
def decodeLevel : Nat → Parser Data
  | 0 => throw .tooDeep
  | n + 1 => do
    skipWs s
    if (← sees s 0 fun _ => true) then do
      let c ← byteAt s (← pos)
      if c = 0x22 then do
        let str ← decodeStr s
        pure (.string str)
      else if c = 0x7B then object s (decodeLevel n)
      else if c = 0x5B then array s (decodeLevel n)
      else scalar s c
    else pure .none

/-- `JSON_MAX_DEPTH`. -/
def maxDepth : Nat := 256

def decodeValue : Parser Data := decodeLevel s (maxDepth + 1)

end Json

end Look
