/-
Index reads and writes of the tree-walking interpreter.

These are the parts of `evaluate_expression` for `IndexExpression`,
`MemberAccessExpression` and the indexed `AssignmentExpression` that come after
the operands have been evaluated.  They use the layout of arrays that
`Look.Vm.World` has for the VM, with the guards of the interpreter.
-/
import Look.Ast
import Look.Vm.World

namespace Look

namespace Interp

variable [DoubleOps]

/-- The operators of an assignment: `apply_op` and the chain for `$var op= val`. -/
def applyOp (arrays : Arrays) (op : AssignOp) (cur val : Value) : Except Fault Value :=
  match op with
  | .set => .ok val
  | .add => cur.add val
  | .sub => cur.sub val
  | .mul => cur.mul val
  | .div => cur.div val
  | .mod => cur.mod val
  | .concat => cur.concat arrays val
  | .bitAnd => .ok (cur.bitwiseAnd val)
  | .bitOr => .ok (cur.bitwiseOr val)
  | .bitXor => .ok (cur.bitwiseXor val)

/-- The pair with a key in an associative array.  Unlike the VM the search
starts behind the first tag also when a struct has a second one. -/
def findPair (arrays : Arrays) (vec : List Value) (key : String) : Except Fault (Option Nat) :=
  findKey arrays key 1 (vec.drop 1)

def notFoundNull (vec : List Value) : Option Nat → Value
  | some i => vec.getD (i + 1) .none
  | none => .none

/-- `arr[i]` with a numeric index. -/
def indexNumeric (vec : List Value) (idx : Value) : Except Fault Value :=
  let i := normIndex idx vec.length
  if i < 0 ∨ (vec.length : Int) ≤ i then
    .error (.error ("Array index " ++ toString i ++ " out of bounds"))
  else .ok (vec.getD i.toNat .none)

/-- `IndexExpression`. -/
def index (arrays : Arrays) (obj idx : Value) : Except Fault Value :=
  match obj with
  | .array p =>
    let vec := arrays.getD p []
    match idx with
    | .string key =>
      if isAssoc vec then (findPair arrays vec key).map (notFoundNull vec)
      else if !isIntKey key then .ok .none
      else indexNumeric vec idx
    | _ => indexNumeric vec idx
  | _ => .error (.error "Index operator requires an array")

/-- `MemberAccessExpression`. -/
def member (arrays : Arrays) (obj : Value) (field : String) : Except Fault Value :=
  match obj with
  | .array p =>
    let vec := arrays.getD p []
    if isAssoc vec then (findPair arrays vec field).map (notFoundNull vec)
    else .error (.error ("Cannot access field '" ++ field ++ "' on a non-struct value"))
  | _ => .error (.error ("Member access '." ++ field ++ "' requires a struct or assoc array"))

/-- Store an element: the contents of the array afterwards and the outcome.  An
error of the operator leaves the contents as they are. -/
def storeAt (arrays : Arrays) (op : AssignOp) (val cur : Value) (vec : List Value)
    (store : Value → List Value) : List Value × Except Fault Value :=
  match applyOp arrays op cur val with
  | .ok nv => (store nv, .ok nv)
  | .error e => (vec, .error e)

/-- The element of an associative array under a string. -/
def assignKey (arrays : Arrays) (op : AssignOp) (vec : List Value) (key : String) (val : Value) :
    List Value × Except Fault Value :=
  match findPair arrays vec key with
  | .error e => (vec, .error e)
  | .ok (some i) =>
    storeAt arrays op val (vec.getD (i + 1) .none) vec fun nv => vec.set (i + 1) nv
  | .ok none => storeAt arrays op val .none vec fun nv => vec ++ [.string key, nv]

def assignNumeric (arrays : Arrays) (op : AssignOp) (vec : List Value) (idx val : Value) :
    List Value × Except Fault Value :=
  let i := normIndex idx vec.length
  if i = vec.length then storeAt arrays op val .none vec fun nv => vec ++ [nv]
  else if 0 ≤ i ∧ i < vec.length then
    storeAt arrays op val (vec.getD i.toNat .none) vec fun nv => vec.set i.toNat nv
  else (vec, .error (.error "Array index out of bounds"))

/-- The indexed assignment on the array at an address.  A list becomes
associative before the operator is applied. -/
def assignArray (w : World) (op : AssignOp) (p : Nat) (idx val : Value) :
    World × Except Fault Value :=
  let vec := w.array p
  match idx with
  | .string key =>
    let vec' := if !isIntKey key ∧ !isAssoc vec then toAssoc vec else vec
    let w' := w.setArray p vec'
    let (vec, r) := if isAssoc vec' then assignKey w'.arrays op vec' key val
      else assignNumeric w'.arrays op vec' idx val
    (w'.setArray p vec, r)
  | _ =>
    let (vec, r) := assignNumeric w.arrays op vec idx val
    (w.setArray p vec, r)

/-- `AssignmentExpression` with an index; `target` names the container in the
error. -/
def assignIndex (w : World) (target : String) (op : AssignOp) (obj idx val : Value) :
    World × Except Fault Value :=
  match obj with
  | .string _ => (w, .error (.error "Strings are immutable; cannot assign to a string index"))
  | .array p => assignArray w op p idx val
  | _ => (w, .error (.error (target ++ " is not an array")))

end Interp

end Look
