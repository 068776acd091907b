/-
Parameters and results of the database drivers.

`DbParam` is a parameter of a statement, `DbRow` a row as a driver returns it, and
`rowsToValue` the value that the script gets.  The type of a cell is a code of the driver;
the codes of the three drivers do not meet.
-/
import Look.Data

namespace Look

inductive DbParam where
  | null
  | int (i : Int64)
  | float (d : Double)
  | text (s : List UInt8)
  | bool (b : Bool)
deriving DecidableEq

structure DbValue where
  str : List UInt8 := []
  type : UInt8 := 0xFE
  isNull : Bool := false
deriving DecidableEq

abbrev DbRow := List (List UInt8 × DbValue)

namespace PgType

def int : UInt8 := 0x30

def float : UInt8 := 0x31

def bool : UInt8 := 0x32

def nul : UInt8 := 0x33

end PgType

/-! ## `rows_to_value` -/

def mysqlIsInt (t : UInt8) : Bool :=
  t = 0x01 || t = 0x02 || t = 0x03 || t = 0x08 || t = 0x09 || t = 0x0D

def mysqlIsFloat (t : UInt8) : Bool := t = 0x04 || t = 0x05 || t = 0xF6

def sqliteIsInt (t : UInt8) : Bool := t = 0x81

def sqliteIsFloat (t : UInt8) : Bool := t = 0x82

def sqliteIsNull (t : UInt8) : Bool := t = 0x85

def pgIsInt (t : UInt8) : Bool := t = PgType.int

def pgIsFloat (t : UInt8) : Bool := t = PgType.float

def pgIsBool (t : UInt8) : Bool := t = PgType.bool

def pgIsNull (t : UInt8) : Bool := t = PgType.nul

variable [DoubleOps]

def cellValue (dv : DbValue) : Data :=
  if dv.isNull || sqliteIsNull dv.type || pgIsNull dv.type then .none
  else if pgIsBool dv.type then
    .bool (dv.str = ascii "t" || dv.str = ascii "true" || dv.str = ascii "1")
  else if mysqlIsInt dv.type || sqliteIsInt dv.type || pgIsInt dv.type then
    match stoll (chars dv.str) with
    | .ok i _ => .int i
    | _ => .string dv.str
  else if mysqlIsFloat dv.type || sqliteIsFloat dv.type || pgIsFloat dv.type then
    match DoubleOps.stod (chars dv.str) with
    | some (d, _) => .float d
    | none => .string dv.str
  else .string dv.str

def rowsToValue (rows : List DbRow) : Data :=
  .array (rows.map fun row => Data.assoc (row.map fun (name, dv) => (name, cellValue dv)))

end Look
