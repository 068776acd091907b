/-
`json_encode` and `json_encode_string`.

An array whose first element is `"__assoc__"` is written as an object, without the entries
under `"__struct__"`.  The encoder counts its levels as the decoder does: what is nested
deeper than 256 is written as `null`.
-/
import Look.Json.Decode

namespace Look

namespace Json

/-! ## Strings -/

/-- `%x` of a number below 16. -/
def hexChar (d : Nat) : UInt8 := (ascii "0123456789abcdef").getD d 0

/-- `%04x`. -/
def hex4 (n : Nat) : Bytes :=
  [hexChar (n / 0x1000 % 16), hexChar (n / 0x100 % 16), hexChar (n / 0x10 % 16), hexChar (n % 16)]

/-- What is written for a byte of a string. -/
def encodeByte (c : UInt8) : Bytes :=
  if c = 0x22 then [0x5C, 0x22]
  else if c = 0x5C then [0x5C, 0x5C]
  else if c = 0x0A then [0x5C, 0x6E]
  else if c = 0x0D then [0x5C, 0x72]
  else if c = 0x09 then [0x5C, 0x74]
  else if c < 0x20 then [0x5C, 0x75] ++ hex4 c.toNat
  else [c]

/-- `json_encode_string`. -/
def encodeString (s : Bytes) : Bytes := 0x22 :: s.flatMap encodeByte ++ [0x22]

/-! ## Values -/

/-- `std::isfinite`. -/
def isFinite (d : Double) : Bool := d.bits >>> 52 &&& 0x7FF#64 ≠ 0x7FF#64

variable [DoubleOps]

mutual

/-- `Value::to_string`. -/
def toText : Data → Bytes
  | .none => ascii "null"
  | .bool b => if b then ascii "true" else ascii "false"
  | .int i => intText i.toInt
  | .float d => ascii (DoubleOps.format d)
  | .string s => s
  | .array elements => ascii "[" ++ (ascii ", ").intercalate (toTexts elements) ++ ascii "]"

def toTexts : List Data → List Bytes
  | [] => []
  | v :: vs => toText v :: toTexts vs

end

/-- The parts of an array or an object with commas between them. -/
def joined : List Bytes → Bytes
  | [] => []
  | [t] => t
  | t :: ts => t ++ 0x2C :: joined ts

/-- What follows `"__assoc__"`. -/
def assocMembers : List Data → Option (List Data)
  | .string tag :: members => if tag = ascii "__assoc__" then some members else none
  | _ => none

/-- The members of an object: a key is followed by its value, and what is left over at the end
is not written. -/
def encodeMembers (value : Data → Bytes) : List Data → List Bytes
  | key :: v :: rest =>
    if toText key = ascii "__struct__" then encodeMembers value rest
    else (encodeString (toText key) ++ 0x3A :: value v) :: encodeMembers value rest
  | _ => []

/-- `json_encode`, with the number of levels that are left. -/
def encodeLevel : Nat → Data → Bytes
  | 0, _ => ascii "null"
  | n + 1, v =>
    match v with
    | .int i => intText i.toInt
    | .float d => if isFinite d then ascii (DoubleOps.format d) else ascii "null"
    | .string s => encodeString s
    | .bool b => if b then ascii "true" else ascii "false"
    | .none => ascii "null"
    | .array elements =>
      match assocMembers elements with
      | some members => 0x7B :: joined (encodeMembers (encodeLevel n) members) ++ [0x7D]
      | none => 0x5B :: joined (elements.map (encodeLevel n)) ++ [0x5D]

/-- `depth > 256` ends the recursion. -/
def encode (v : Data) : Bytes := encodeLevel (maxDepth + 1) v

end Json

end Look
