/-
The memory that programs share, and the operations on arrays and closures.

Arrays, closures and channels live at addresses of a `World`.  Several VMs may
work on one world: the tasks that `parallel` starts run beside the VM that
started them.
-/
import Look.Bytecode

namespace Look

/-- `LookChannel`.  `recvGen` counts the values taken out, which is how the
sender on an unbuffered channel sees that its value was received. -/
structure Channel where
  queue : List Value
  capacity : Nat
  closed : Bool
  unbuffered : Bool
  recvGen : Nat
deriving DecidableEq

structure World where
  arrays : Arrays
  closures : List Closure
  channels : List Channel
  /- The tasks that hold a slot of the limiter. -/
  activeTasks : Nat

namespace World

def newArray (w : World) (vs : List Value) : Value × World :=
  (.array w.arrays.length, { w with arrays := w.arrays ++ [vs] })

def setArray (w : World) (p : Nat) (vs : List Value) : World :=
  { w with arrays := w.arrays.set p vs }

def array (w : World) (p : Nat) : List Value := w.arrays.getD p []

def newClosure (w : World) (c : Closure) : Value × World :=
  (.bytecodeFn w.closures.length, { w with closures := w.closures ++ [c] })

def setChannel (w : World) (p : Nat) (ch : Channel) : World :=
  { w with channels := w.channels.set p ch }

end World

/-! ## Arrays -/

namespace Value

/-- `str_ref`: the text of a string, and the empty text of anything else. -/
def strRef : Value → String
  | .string s => s
  | _ => ""

/-- `as_int` reads the payload whatever the type. -/
def rawInt : Value → Int
  | .int i => i.toInt
  | .float d => d.bits.toInt
  | .bool b => if b then 1 else 0
  | _ => 0

end Value

def assocTag : Value := .string "__assoc__"

def structTag : Value := .string "__struct__"

/-- `look_is_int_key`: the text is a whole number. -/
def isIntKey (s : String) : Bool :=
  let digits := match s.toList with
    | '-' :: ds => ds
    | '+' :: ds => ds
    | ds => ds
  !digits.isEmpty && digits.all isDigitChar

/-- The array starts with the sentinel of an associative array. -/
def isAssoc (vec : List Value) : Bool := vec.head? = some assocTag

/-- Where the pairs of an associative array start: behind the sentinel, and
behind the name of the struct if there is one. -/
def pairsStart (vec : List Value) : Nat :=
  if 2 < vec.length ∧ vec[1]? = some structTag then 3 else 1

section Arrays

variable [DoubleOps]

/-- The text that an associative array compares for a key. -/
def keyText (arrays : Arrays) (key : Value) : Except Fault String := key.toStr arrays

/-- The position of a key among the pairs from position `i` on. -/
def findKey (arrays : Arrays) (k : String) : Nat → List Value → Except Fault (Option Nat)
  | i, key :: _ :: rest => do
    if (← keyText arrays key) = k then return some i
    findKey arrays k (i + 2) rest
  | _, _ => return none

/-- A numeric index, counted from the end when negative. -/
def normIndex (key : Value) (size : Nat) : Int :=
  let i := key.toInt.toInt
  if i < 0 then i + size else i

def outOfBounds (key : Value) : Fault :=
  .error ("Array index " ++ toString key.toInt.toInt ++ " out of bounds")

/-- The key is a string that is not a whole number. -/
def isStrKey : Value → Bool
  | .string s => !isIntKey s
  | _ => false

/-- `VM::array_get`. -/
def arrayGet (arrays : Arrays) (arr key : Value) : Except Fault Value :=
  match arr with
  | .array p =>
    let vec := arrays.getD p []
    if isAssoc vec then do
      let k ← keyText arrays key
      match ← findKey arrays k (pairsStart vec) (vec.drop (pairsStart vec)) with
      | some i => return vec.getD (i + 1) .none
      | none => return .none
    else if isStrKey key then return .none
    else
      let i := normIndex key vec.length
      if i < 0 ∨ (vec.length : Int) ≤ i then throw (outOfBounds key)
      else return vec.getD i.toNat .none
  | _ => return .none

/-- A list with its positions as keys, the associative form of a list. -/
def toAssoc (vec : List Value) : List Value :=
  assocTag :: (vec.zipIdx.flatMap fun (v, i) => [.string (toString i), v])

/-- The contents that `VM::array_set` leaves in an array. -/
def setElement (arrays : Arrays) (vec : List Value) (key val : Value) :
    Except Fault (List Value) :=
  if isAssoc vec ∨ isStrKey key then do
    let k ← keyText arrays key
    let vec := if isAssoc vec then vec else toAssoc vec
    match ← findKey arrays k (pairsStart vec) (vec.drop (pairsStart vec)) with
    | some i => return vec.set (i + 1) val
    | none => return vec ++ [.string k, val]
  else
    let i := normIndex key vec.length
    if i = vec.length then return vec ++ [val]
    else if i < 0 ∨ (vec.length : Int) < i then throw (outOfBounds key)
    else return vec.set i.toNat val

/-- `VM::array_set`: the container and the world afterwards, and the error if
it throws.  A null container is a new array from then on, also when storing the
element throws. -/
def arraySet (w : World) (arr key val : Value) : Value × World × Option Fault :=
  let (arr, w) := if arr = .none then w.newArray [] else (arr, w)
  match arr with
  | .string _ =>
    (arr, w, some (.error "Strings are immutable; cannot assign to a string index"))
  | .array p =>
    match setElement w.arrays (w.array p) key val with
    | .ok vec => (arr, w.setArray p vec, none)
    | .error e => (arr, w, some e)
  | _ => (arr, w, none)

/-- `ARRAY_LEN`: the number of pairs of an associative array, the number of
elements of a list. -/
def arrayLen (arrays : Arrays) : Value → Nat
  | .array p =>
    let vec := arrays.getD p []
    if isAssoc vec then (vec.length - pairsStart vec) / 2 else vec.length
  | _ => 0

end Arrays

/-! ## Copies -/

/-- The handles that are shared on purpose. -/
def isSharedHandle : Value → Bool
  | .channel _ => true
  | .websocket _ => true
  | .sseConn _ => true
  | _ => false

/-- Apply `f` to each value in order, threading the world. -/
def mapWorld (f : Value → World → Value × World) : List Value → World → List Value × World
  | [], w => ([], w)
  | v :: rest, w =>
    let (v, w) := f v w
    let (rest, w) := mapWorld f rest w
    (v :: rest, w)

/-- `deep_clone_impl` and `clone_bytecode_fn`.  An array or a closure that is
being copied further out becomes null, so the recursion is never deeper than
the world has arrays and closures. -/
def deepCloneAux : Nat → List Nat → List Nat → Value → World → Value × World
  | 0, _, _, .array _, w => (.none, w)
  | 0, _, _, .bytecodeFn _, w => (.none, w)
  | fuel + 1, arrs, clos, .array p, w =>
    if p ∈ arrs then (.none, w)
    else
      let (vs, w) := mapWorld (deepCloneAux fuel (p :: arrs) clos) (w.array p) w
      w.newArray vs
  | fuel + 1, arrs, clos, .bytecodeFn p, w =>
    match w.closures[p]? with
    | none => (.bytecodeFn p, w)
    | some c =>
      if p ∈ clos then (.none, w)
      else
        let (vs, w) := mapWorld (fun v w =>
          if isSharedHandle v then (v, w) else deepCloneAux fuel arrs (p :: clos) v w) c.captures w
        w.newClosure { proto := c.proto, captures := vs }
  | _, _, _, v, w => (v, w)

/-- `Value::deep_clone`, and `clone_for_thread` on the values a VM holds. -/
def deepClone (v : Value) (w : World) : Value × World :=
  deepCloneAux (w.arrays.length + w.closures.length + 1) [] [] v w

/-- `carries_mutable_state`. -/
def carriesMutableState (w : World) : Value → Bool
  | .array _ => true
  | .bytecodeFn p => ((w.closures[p]?).map fun c => !c.captures.isEmpty).getD false
  | _ => false

/-- `VM::request_local`: the closure as a request calls it. -/
def requestLocal (c : Closure) (w : World) : Closure × World :=
  if c.captures.any (carriesMutableState w) then
    let (vs, w) := mapWorld (fun v w =>
      if carriesMutableState w v then deepClone v w else (v, w)) c.captures w
    ({ proto := c.proto, captures := vs }, w)
  else (c, w)

end Look
