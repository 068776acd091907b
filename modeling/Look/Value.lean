/-
The dynamic values of the language and the operators on them.

`Value` is the tagged union of `interpreter.h`.  Scalars and strings are held by
value.  An array, a closure, a channel and the other reference types are
addresses into a heap that the two engines own, because the source shares them
through `shared_ptr` and writes to them in place; an array's elements are found
through the list `arrays` that the operators take.

Integers are `Int64` with the source's own overflow tests.  A `double` is its
64-bit pattern, and what the machine and the C library do with it is the class
`DoubleOps`: the model needs to know which operation is applied to which
operand, never the result.
-/
import Mathlib.Logic.Basic

namespace Look

/-- A binary64 value, by its bit pattern. -/
structure Double where
  bits : BitVec 64
deriving DecidableEq

/-- The floating-point operations of the target: IEEE arithmetic, the casts
between `int64_t` and `double`, `std::pow`, `look_format_double`, and
`std::stod`, which gives the value and the number of characters it consumed, or
`none` when it throws. -/
class DoubleOps where
  add : Double → Double → Double
  sub : Double → Double → Double
  mul : Double → Double → Double
  div : Double → Double → Double
  pow : Double → Double → Double
  neg : Double → Double
  ofInt64 : Int64 → Double
  toInt64 : Double → Int64
  eq : Double → Double → Bool
  lt : Double → Double → Bool
  le : Double → Double → Bool
  format : Double → String
  stod : String → Option (Double × Nat)

namespace Double

def zero : Double := ⟨0⟩

def toHost (d : Double) : Float := Float.ofBits ⟨d.bits⟩

def ofHost (x : Float) : Double := ⟨x.toBits.toBitVec⟩

end Double

/-- The operations of Lean's own binary64 type, for runs on concrete programs.
`format` and `stod` are right on whole numbers only. -/
@[reducible] def DoubleOps.host : DoubleOps where
  add x y := .ofHost (x.toHost + y.toHost)
  sub x y := .ofHost (x.toHost - y.toHost)
  mul x y := .ofHost (x.toHost * y.toHost)
  div x y := .ofHost (x.toHost / y.toHost)
  pow x y := .ofHost (x.toHost ^ y.toHost)
  neg x := .ofHost (-x.toHost)
  ofInt64 i := .ofHost (Float.ofInt i.toInt)
  toInt64 x := x.toHost.toInt64
  eq x y := x.toHost == y.toHost
  lt x y := x.toHost < y.toHost
  le x y := x.toHost ≤ y.toHost
  format x := toString x.toHost.toInt64.toInt
  stod s := s.toNat?.map fun n => (.ofHost (Float.ofNat n), s.length)

/-- A value of the language.  The payload of a reference type is an address. -/
inductive Value where
  | int (i : Int64)
  | float (d : Double)
  | string (s : String)
  | bool (b : Bool)
  | function (p : Nat)
  | array (p : Nat)
  | channel (p : Nat)
  | websocket (p : Nat)
  | sseConn (p : Nat)
  | bytecodeFn (p : Nat)
  | none
deriving DecidableEq

instance : Inhabited Value := ⟨.none⟩

/-- The contents of every array, by address. -/
abbrev Arrays := List (List Value)

/-- What an operator does instead of returning: it throws, or it recurses for
ever on a cyclic array and exhausts the native stack. -/
inductive Fault where
  | error (message : String)
  | stackExhausted
deriving DecidableEq

/-! ## `std::stoll` -/

/-- `std::stoll` on a text: the value and the characters consumed, or which
exception it throws. -/
inductive StollResult where
  | ok (i : Int64) (pos : Nat)
  | invalidArgument
  | outOfRange
deriving DecidableEq

/-- The number of characters a successful conversion consumed. -/
def StollResult.consumed : StollResult → Option Nat
  | .ok _ pos => some pos
  | _ => none

def isSpaceChar (c : Char) : Bool :=
  c = ' ' || c = '\t' || c = '\n' || c = '\x0b' || c = '\x0c' || c = '\r'

def isDigitChar (c : Char) : Bool := '0' ≤ c && c ≤ '9'

/-- The number written by the leading digits, and how many there are. -/
def leadingDigits (cs : List Char) : Nat × Nat :=
  let ds := cs.takeWhile isDigitChar
  (ds.foldl (fun n c => 10 * n + (c.toNat - '0'.toNat)) 0, ds.length)

def int64Max : Int := 9223372036854775807

def int64Min : Int := -9223372036854775808

def stoll (s : String) : StollResult :=
  let blanks := s.toList.takeWhile isSpaceChar
  let rest := s.toList.drop blanks.length
  let (negative, sign, digits) := match rest with
    | '-' :: ds => (true, 1, ds)
    | '+' :: ds => (false, 1, ds)
    | ds => (false, 0, ds)
  let (n, len) := leadingDigits digits
  let v : Int := if negative then -(n : Int) else n
  if len = 0 then .invalidArgument
  else if v < int64Min || int64Max < v then .outOfRange
  else .ok (Int64.ofInt v) (blanks.length + sign + len)

namespace Value

/-! ## Conversions -/

section Conversions

variable [DoubleOps]

/-- `Value::to_string`, following at most `depth` nested arrays. -/
def toStringAux (arrays : Arrays) : Nat → Value → Except Fault String
  | _, .int i => .ok (toString i.toInt)
  | _, .float d => .ok (DoubleOps.format d)
  | _, .string s => .ok s
  | _, .bool b => .ok (if b then "true" else "false")
  | _, .none => .ok "null"
  | _, .function _ => .ok "<function>"
  | _, .channel _ => .ok "<channel>"
  | _, .websocket _ => .ok "<websocket>"
  | _, .sseConn _ => .ok ""
  | _, .bytecodeFn _ => .ok ""
  | 0, .array _ => .error .stackExhausted
  | depth + 1, .array p => do
    let parts ← (arrays.getD p []).mapM (toStringAux arrays depth)
    return "[" ++ ", ".intercalate parts ++ "]"

/-- `Value::to_string`.  A chain of nested arrays longer than the heap repeats
an array, so following as many arrays as there are finds every finite text. -/
def toStr (arrays : Arrays) (v : Value) : Except Fault String :=
  toStringAux arrays (arrays.length + 1) v

def isTruthy (arrays : Arrays) : Value → Bool
  | .bool b => b
  | .int i => i ≠ 0
  | .float d => !DoubleOps.eq d Double.zero
  | .string s => s ≠ "" && s ≠ "0"
  | .none => false
  | .array p => !(arrays.getD p []).isEmpty
  | _ => true

def toFloat : Value → Double
  | .int i => DoubleOps.ofInt64 i
  | .float d => d
  | .string s => ((DoubleOps.stod s).map Prod.fst).getD Double.zero
  | .bool b => DoubleOps.ofInt64 (if b then 1 else 0)
  | _ => Double.zero

def toInt : Value → Int64
  | .int i => i
  | .float d => DoubleOps.toInt64 d
  | .string s => match stoll s with
    | .ok i _ => i
    | _ => 0
  | .bool b => if b then 1 else 0
  | _ => 0

end Conversions

/-! ## Arithmetic -/

section Arithmetic

variable [DoubleOps]

/-- A sum, difference or product of two `int64_t`, or `none` on overflow. -/
def int64Checked (f : Int → Int → Int) (a b : Int64) : Option Int64 :=
  let r := f a.toInt b.toInt
  if r < int64Min || int64Max < r then Option.none else some (Int64.ofInt r)

/-- `arith_check`: whether a value may stand in arithmetic. -/
def arithCheck : Value → Except Fault Unit
  | .int _ => .ok ()
  | .float _ => .ok ()
  | .bool _ => .ok ()
  | .string s =>
    if s = "" then .error (.error "Arithmetic on an empty string")
    else match stoll s with
      | .outOfRange => .error (.error
          ("Arithmetic on a numeric string exceeding the int64 limit (bignum/ID): '" ++ s ++ "'"))
      | r =>
        if r.consumed = some s.length then .ok ()
        else if (DoubleOps.stod s).map Prod.snd = some s.length then .ok ()
        else .error (.error
          ("Arithmetic on a string that cannot be converted to a number: '" ++ s ++ "'"))
  | _ => .error (.error "Arithmetic on a non-numeric value (null/array/object)")

def isFloat : Value → Bool
  | .float _ => true
  | _ => false

/-- `operator+`, `operator-` and `operator*`: exact on integers that fit,
otherwise in floating point. -/
def arith (exact : Int → Int → Int) (approx : Double → Double → Double) (x y : Value) :
    Except Fault Value := do
  arithCheck x
  arithCheck y
  if x.isFloat || y.isFloat then
    return .float (approx x.toFloat y.toFloat)
  match int64Checked exact x.toInt y.toInt with
  | some r => return .int r
  | Option.none =>
    return .float (approx (DoubleOps.ofInt64 x.toInt) (DoubleOps.ofInt64 y.toInt))

def add : Value → Value → Except Fault Value := arith (· + ·) DoubleOps.add

def sub : Value → Value → Except Fault Value := arith (· - ·) DoubleOps.sub

def mul : Value → Value → Except Fault Value := arith (· * ·) DoubleOps.mul

def div (x y : Value) : Except Fault Value := do
  arithCheck x
  arithCheck y
  let d := y.toFloat
  if DoubleOps.eq d Double.zero then throw (.error "Division by zero")
  if x.isFloat || y.isFloat then return .float (DoubleOps.div x.toFloat d)
  let i := y.toInt
  let self := x.toInt
  if i = -1 ∧ self.toInt = int64Min then
    return .float (DoubleOps.neg (DoubleOps.ofInt64 self))
  if i ≠ 0 ∧ self % i = 0 then return .int (self / i)
  return .float (DoubleOps.div x.toFloat d)

def mod (x y : Value) : Except Fault Value := do
  arithCheck x
  arithCheck y
  let i := y.toInt
  if i = 0 then throw (.error "Modulo by zero")
  if i = -1 then return .int 0
  return .int (x.toInt % i)

def pow (x y : Value) : Value := .float (DoubleOps.pow x.toFloat y.toFloat)

/-- Unary minus, as both engines compute it. -/
def neg : Value → Value
  | .float d => .float (DoubleOps.neg d)
  | v =>
    if v.toInt.toInt = int64Min then .float (DoubleOps.neg (DoubleOps.ofInt64 v.toInt))
    else .int (-v.toInt)

end Arithmetic

/-! ## Text, comparison and bits -/

section Operators

variable [DoubleOps]

def concat (arrays : Arrays) (x y : Value) : Except Fault Value := do
  return .string ((← toStr arrays x) ++ (← toStr arrays y))

/-- `append_in_place`: the right operand is converted first. -/
def appendInPlace (arrays : Arrays) (x y : Value) : Except Fault Value := do
  let rhs ← toStr arrays y
  return .string ((← toStr arrays x) ++ rhs)

def isNumber : Value → Bool
  | .int _ => true
  | .float _ => true
  | _ => false

/-- `Value::operator==`.  Two arrays are never equal, not even one to itself. -/
def eq : Value → Value → Bool
  | .int a, .int b => a = b
  | .string a, .string b => a = b
  | .bool a, .bool b => a = b
  | .none, .none => true
  | .function a, .function b => a = b
  | .channel a, .channel b => a = b
  | .websocket a, .websocket b => a = b
  | .sseConn a, .sseConn b => a = b
  | .bytecodeFn a, .bytecodeFn b => a = b
  | x, y => x.isNumber && y.isNumber && DoubleOps.eq x.toFloat y.toFloat

def cmpTypeError : Fault := .error
  ("Incomparable types: '<'/'>' only for number↔number and string↔string — " ++
    "convert with int()/float()/string() before comparing different types")

/-- The four orderings: exact on integers, floating point on mixed numbers,
bytewise on strings, and an error on anything else. -/
def compare (ofInt : Int64 → Int64 → Bool) (ofDouble : Double → Double → Bool)
    (ofString : String → String → Bool) : Value → Value → Except Fault Bool
  | .int a, .int b => .ok (ofInt a b)
  | .string a, .string b => .ok (ofString a b)
  | x, y =>
    if x.isNumber && y.isNumber then .ok (ofDouble x.toFloat y.toFloat) else .error cmpTypeError

def lt : Value → Value → Except Fault Bool :=
  compare (fun a b => a < b) DoubleOps.lt fun a b => a < b

def le : Value → Value → Except Fault Bool :=
  compare (fun a b => a ≤ b) DoubleOps.le fun a b => a = b || a < b

def gt : Value → Value → Except Fault Bool :=
  compare (fun a b => b < a) (fun a b => DoubleOps.lt b a) fun a b => b < a

def ge : Value → Value → Except Fault Bool :=
  compare (fun a b => b ≤ a) (fun a b => DoubleOps.le b a) fun a b => a = b || b < a

def spaceship (x y : Value) : Except Fault Value := do
  if x.eq y then return .int 0
  return .int (if ← lt x y then -1 else 1)

def bitwiseAnd (x y : Value) : Value := .int (x.toInt &&& y.toInt)

def bitwiseOr (x y : Value) : Value := .int (x.toInt ||| y.toInt)

def bitwiseXor (x y : Value) : Value := .int (x.toInt ^^^ y.toInt)

def bitwiseNot (x : Value) : Value := .int (~~~x.toInt)

/-- A shift by less than 0 or more than 63 gives 0. -/
def shift (f : Int64 → Int64 → Int64) (x y : Value) : Value :=
  if y.toInt < 0 || 64 ≤ y.toInt then .int 0 else .int (f x.toInt y.toInt)

def shiftLeft : Value → Value → Value := shift (· <<< ·)

def shiftRight : Value → Value → Value := shift (· >>> ·)

end Operators

end Value

end Look
