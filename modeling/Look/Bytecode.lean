/-
The bytecode: instructions, the compiled form of a function, and closures.

An instruction is an opcode and three operands of one byte.  Operands are
natural numbers here, and the compiler's narrowing checks keep them below 256.
Some instructions are followed by *hint* words that the VM reads together with
them and never executes: `NOP` after a call carries the argument count, `NOP`
and `LOAD_CONST_W` after `NEW_STRUCT` carry the field names of a literal, and
`LOAD_CAPTURE 0 r` after `MAKE_CLOSURE` names a captured register.
-/
import Look.Value

namespace Look

inductive OpCode where
  | loadConst
  | loadConstW
  | loadNull
  | loadTrue
  | loadFalse
  | loadInt
  | move
  | loadVar
  | storeVar
  | loadGlobal
  | storeGlobal
  | add
  | sub
  | mul
  | div
  | mod
  | pow
  | unm
  | band
  | bor
  | bxor
  | bnot
  | shl
  | shr
  | concat
  | eq
  | neq
  | lt
  | gt
  | lte
  | gte
  | cmp3
  | not
  | coalesce
  | newArray
  | newAssoc
  | arrayGet
  | arraySet
  | arrayPush
  | arrayLen
  | newStruct
  | getField
  | setField
  | jump
  | jumpIfFalse
  | jumpIfTrue
  | jumpIfNull
  | call
  | callBuiltin
  | tailCall
  | ret
  | retNull
  | makeClosure
  | loadCapture
  | forPrep
  | forStep
  | tryPush
  | tryPop
  | throw
  | loadExc
  | loadArgc
  | parallelCall
  | chanSend
  | chanRecv
  | chanClose
  | chanSize
  | wsSend
  | wsBroadcast
  | sseSend
  | routeMatch
  | typeOf
  | toInt
  | toFloat
  | toStr
  | toBool
  | nop
  | breakpoint
  | assocAppend
  | checkDefined
deriving DecidableEq

structure Instruction where
  op : OpCode
  a : Nat := 0
  b : Nat := 0
  c : Nat := 0
deriving DecidableEq

namespace Instruction

/-- The 16-bit operand in `b` and `c`. -/
def bx (w : Instruction) : Nat := 256 * w.b + w.c

end Instruction

/-- What a word of code was emitted for.  The source keeps no such table: it
records, beside each word, the construct that the compiler was translating, so
that what the VM decodes can be compared with what the compiler meant. -/
inductive Origin where
  | plain
  /- The jump or the return of a `return`, `break` or `continue`. -/
  | leave
  | call (argc : Nat) (name : Option String)
  | builtin (index : Nat) (argc : Nat)
  /- A `print` or `write` call: one argument and no hint. -/
  | output
  | structLit (fields : List String)
  | closure (captures : List Nat)
  /- A hint word of the instruction before it. -/
  | hint
deriving DecidableEq

/-- A compiled function.  `uid` stands for its address, which the VM's cache of
global slots uses as a key. -/
structure FunctionProto where
  uid : Nat
  name : String
  params : List String
  variadic : Bool
  regCount : Nat
  constants : List Value
  code : List Instruction
  nested : List FunctionProto
  lines : List Nat
  captureIsCell : List Bool
  origins : List Origin

namespace FunctionProto

/-- The number of declared parameters. -/
def arity (p : FunctionProto) : Nat := p.params.length

instance : Inhabited FunctionProto :=
  ⟨{ uid := 0, name := "", params := [], variadic := false, regCount := 0, constants := [],
     code := [], nested := [], lines := [], captureIsCell := [], origins := [] }⟩

end FunctionProto

/-- A function together with the values it captured when it was created. -/
structure Closure where
  proto : FunctionProto
  captures : List Value

/-- The output of the compiler. -/
structure CompiledProgram where
  mainProto : FunctionProto
  usesNonBuiltinModuleFn : Bool
  nonBuiltinModuleFns : List String
  warnings : List String

end Look
