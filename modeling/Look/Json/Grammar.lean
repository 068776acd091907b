/-
The grammar of JSON and what a text denotes.

`Denotes n t v` says that `t` is a value of JSON, nested at most `n` deep, whose numbers are
integers, and that it denotes `v`.  An integer outside `int64_t` denotes its own text, and of
several members with the same key the last one counts, in the place of the first.
-/
import Look.Json.Decode

namespace Look

namespace Json

def Blank (w : Bytes) : Prop := ∀ c ∈ w, c = 0x20 ∨ c = 0x09 ∨ c = 0x0A ∨ c = 0x0D

/-! ## Strings -/

/-- A part of a string: a byte, or a `\u` with its code. -/
inductive Piece where
  | byte (b : UInt8)
  | code (cp : Nat)

/-- The bytes behind a backslash and what they stand for. -/
def escapes : List (UInt8 × UInt8) :=
  [(0x22, 0x22), (0x5C, 0x5C), (0x2F, 0x2F), (0x62, 0x08), (0x66, 0x0C), (0x6E, 0x0A),
    (0x72, 0x0D), (0x74, 0x09)]

/-- `c` is the hexadecimal digit `d`. -/
def HexDigit (c : UInt8) (d : Nat) : Prop :=
  (ascii "0123456789abcdef")[d]? = some c ∨ (ascii "0123456789ABCDEF")[d]? = some c

/-- What stands between the quotes of a string. -/
inductive Chars : Bytes → List Piece → Prop where
  | nil : Chars [] []
  | plain {b t us} (hcontrol : 0x20 ≤ b) (hquote : b ≠ 0x22) (hbackslash : b ≠ 0x5C)
    (rest : Chars t us) : Chars (b :: t) (.byte b :: us)
  | escape {e b t us} (h : (e, b) ∈ escapes) (rest : Chars t us) :
    Chars (0x5C :: e :: t) (.byte b :: us)
  | code {a b c d : UInt8} {i j k l : Nat} {t us} (ha : HexDigit a i) (hb : HexDigit b j)
    (hc : HexDigit c k) (hd : HexDigit d l) (rest : Chars t us) :
    Chars (0x5C :: 0x75 :: a :: b :: c :: d :: t)
      (.code (((i * 16 + j) * 16 + k) * 16 + l) :: us)

/-- The UTF-8 bytes of a code; half of a pair alone has three bytes, too. -/
def codeBytes (cp : Nat) : Bytes :=
  if 0xD800 ≤ cp ∧ cp ≤ 0xDFFF then
    [0xED, UInt8.ofNat (0x80 + cp / 64 % 64), UInt8.ofNat (0x80 + cp % 64)]
  else String.utf8EncodeChar (Char.ofNat cp)

/-- The bytes of a string: the two halves of a pair are one character. -/
def pieces : List Piece → Bytes
  | [] => []
  | .byte b :: us => b :: pieces us
  | .code hi :: .code lo :: us =>
    if (0xD800 ≤ hi ∧ hi ≤ 0xDBFF) ∧ 0xDC00 ≤ lo ∧ lo ≤ 0xDFFF then
      codeBytes (0x10000 + (hi - 0xD800) * 0x400 + (lo - 0xDC00)) ++ pieces us
    else codeBytes hi ++ pieces (.code lo :: us)
  | .code cp :: us => codeBytes cp ++ pieces us

/-! ## Values -/

/-- The value of an integer with these digits. -/
def integerValue (neg : Bool) (ds : List Char) : Data :=
  let v : Int := if neg then -(Nat.ofDigitChars 10 ds 0 : Int) else Nat.ofDigitChars 10 ds 0
  if int64Min ≤ v ∧ v ≤ int64Max then .int (Int64.ofInt v) else .string (numeral neg ds)

/-- The last value of every key, in the order in which the keys come first. -/
def merged (ps : List (Bytes × Data)) : List (Bytes × Data) :=
  (ps.map Prod.fst).eraseDups.map fun key => (key, (AssocList.lookup key ps.reverse).getD .none)

inductive Scalar : Bytes → Data → Prop where
  | null : Scalar (ascii "null") .none
  | true : Scalar (ascii "true") (.bool .true)
  | false : Scalar (ascii "false") (.bool .false)
  | string {t us} (h : Chars t us) : Scalar (0x22 :: t ++ [0x22]) (.string (pieces us))
  | integer (neg : Bool) {ds : List Char} (hne : ds ≠ []) (hdigits : ∀ d ∈ ds, isDigitChar d)
    (hzero : ds.head? = some '0' → ds = ['0']) : Scalar (numeral neg ds) (integerValue neg ds)

/-- One or more items with white space around them and commas between them. -/
inductive Items {α : Type} (Q : Bytes → α → Prop) : Bytes → List α → Prop where
  | one {w t w' a} (hw : Blank w) (h : Q t a) (hw' : Blank w') : Items Q (w ++ t ++ w') [a]
  | cons {w t w' a body as} (hw : Blank w) (h : Q t a) (hw' : Blank w') (rest : Items Q body as) :
    Items Q (w ++ t ++ w' ++ 0x2C :: body) (a :: as)

/-- A member of an object whose value has `P`. -/
inductive Member (P : Bytes → Data → Prop) : Bytes → Bytes × Data → Prop where
  | mk {k us w w' t v} (hk : Chars k us) (hw : Blank w) (hw' : Blank w') (h : P t v) :
    Member P (0x22 :: k ++ 0x22 :: w ++ 0x3A :: w' ++ t) (pieces us, v)

/-- A value whose elements and members have `P`. -/
inductive Node (P : Bytes → Data → Prop) : Bytes → Data → Prop where
  | scalar {t v} (h : Scalar t v) : Node P t v
  | emptyArray {w} (hw : Blank w) : Node P (0x5B :: w ++ [0x5D]) (.array [])
  | array {body vs} (h : Items P body vs) : Node P (0x5B :: body ++ [0x5D]) (.array vs)
  | emptyObject {w} (hw : Blank w) : Node P (0x7B :: w ++ [0x7D]) (Data.assoc [])
  | object {body ps} (h : Items (Member P) body ps) :
    Node P (0x7B :: body ++ [0x7D]) (Data.assoc (merged ps))

/-- A value that is nested at most `n` deep, and what it denotes. -/
def Denotes : Nat → Bytes → Data → Prop
  | 0 => Scalar
  | n + 1 => Node (Denotes n)

/-- A text is a value and white space. -/
def TextDenotes (n : Nat) (s : Bytes) (v : Data) : Prop :=
  ∃ w t w', Blank w ∧ Denotes n t v ∧ Blank w' ∧ s = w ++ t ++ w'

end Json

end Look
