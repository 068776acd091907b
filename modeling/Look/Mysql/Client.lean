/-
`MySQLClient`: reading the reply to a query and to the execution of a prepared statement.

The two replies differ in the texts of their errors and in the form of a row: `query` gets
every cell as a text and `stmt_execute` as a value of the column's type.
-/
import Look.Lib.Bitmap
import Look.Mysql.Execute

namespace Look

namespace Mysql

/-- The parts of `MySQLClient` that a reply changes, and what was written to the socket. -/
structure Client where
  conn : Conn UInt8
  sent : Bytes
  affectedRows : UInt64
  lastInsertId : UInt64
  inTxn : Bool

structure ColInfo where
  name : Bytes
  type : UInt8
deriving DecidableEq

/-! ## Cells -/

/-- The read of a cell in `query`. -/
def textCell (col : ColInfo) (p : Bytes) : DbValue × Bytes :=
  if p.head? = some 0xFB then (⟨[], 0xFE, true⟩, p.drop 1)
  else
    let (s, rest) := readLenencStr p
    (⟨s, col.type, false⟩, rest)

def textRow : List ColInfo → Bytes → DbRow
  | [], _ => []
  | col :: cols, p =>
    let (value, rest) := textCell col p
    (col.name, value) :: textRow cols rest

/-- `read_le`. -/
def readLe (w : Nat) (p : Bytes) : Nat × Bytes := (ofLe (p.take w), p.drop w)

/-- Four bytes of a value. -/
def word (g : Nat → Nat) (off : Nat) : Nat :=
  g off ||| g (off + 1) <<< 8 ||| g (off + 2) <<< 16 ||| g (off + 3) <<< 24

/-- `hours:minutes:seconds`. -/
def clock (hours : Bytes) (minutes seconds : Nat) : Bytes :=
  hours ++ ascii ":" ++ padded 2 minutes ++ ascii ":" ++ padded 2 seconds

/-- The text of a TIME of `len` bytes. -/
def timeText (len : Nat) (g : Nat → Nat) : Bytes :=
  if len = 0 then ascii "00:00:00"
  else
    let sign := if g 0 ≠ 0 then ascii "-" else []
    let text := sign ++ clock (intText (word g 1 * 24 + g 5)) (g 6) (g 7)
    if 12 ≤ len then text ++ ascii "." ++ padded 6 (word g 8) else text

/-- The text of a DATE, DATETIME or TIMESTAMP of `len` bytes. -/
def dateText (len : Nat) (g : Nat → Nat) : Bytes :=
  if len = 0 then ascii "0000-00-00"
  else
    let year := g 0 ||| g 1 <<< 8
    let date := padded 4 year ++ ascii "-" ++ padded 2 (g 2) ++ ascii "-" ++ padded 2 (g 3)
    if 7 ≤ len then
      let text := date ++ ascii " " ++ clock (padded 2 (g 4)) (g 5) (g 6)
      if 11 ≤ len then text ++ ascii "." ++ padded 6 (word g 7) else text
    else date

/-- `read_temporal`. -/
def readTemporal (text : Nat → (Nat → Nat) → Bytes) (p : Bytes) : Bytes × Bytes :=
  let (len, p) := readLe 1 p
  (text len fun off => (p.getD off 0).toNat, p.drop len)

/-- How many bytes `read_le` takes for a type, for those that are read with it. -/
def leWidth (type : UInt8) : Option Nat :=
  if type = 0x01 then some 1
  else if type = 0x02 ∨ type = 0x0D then some 2
  else if type = 0x03 ∨ type = 0x09 then some 4
  else if type = 0x08 then some 8
  else if type = 0x10 then some 1
  else none

variable [DoubleOps]

/-- A `float` or `double`, which stays unset without its bytes. -/
def readFloat (w : Nat) (value : Nat → Double) (p : Bytes) : Bytes × Bytes :=
  if w ≤ p.length then (ascii (DoubleOps.format (value (ofLe (p.take w)))), p.drop w)
  else (ascii (DoubleOps.format Double.zero), p)

/-- The `double` with the value of a `float`. -/
def ofFloat (n : Nat) : Double := .ofHost (Float32.ofBits (UInt32.ofNat n)).toFloat

/-- The read of a cell in `stmt_execute`. -/
def binaryValue (type : UInt8) (p : Bytes) : Bytes × Bytes :=
  match leWidth type with
  | some w =>
    let (n, rest) := readLe w p
    (intText (Int64.ofNat n).toInt, rest)
  | none =>
    if type = 0x04 then readFloat 4 ofFloat p
    else if type = 0x05 then readFloat 8 (fun n => ⟨BitVec.ofNat 64 n⟩) p
    else if type = 0x0A ∨ type = 0x0E ∨ type = 0x07 ∨ type = 0x0C then readTemporal dateText p
    else if type = 0x0B then readTemporal timeText p
    else readLenencStr p

def binaryCells (nbm : Bytes) : Nat → List ColInfo → Bytes → DbRow
  | _, [], _ => []
  | ci, col :: cols, p =>
    if bitAt nbm (ci + 2) then
      (col.name, ⟨[], col.type, true⟩) :: binaryCells nbm (ci + 1) cols p
    else
      let (str, rest) := binaryValue col.type p
      (col.name, ⟨str, col.type, false⟩) :: binaryCells nbm (ci + 1) cols rest

def binaryRow (cols : List ColInfo) (p : Bytes) : DbRow :=
  let p := p.drop 1
  let nb := (cols.length + 7 + 2) / 8
  binaryCells (p.take nb) 0 cols (p.drop nb)

/-! ## Result sets -/

/-- The name and the type in a column's packet. -/
def readColumn (p : Bytes) : ColInfo :=
  let skip (p : Bytes) := (readLenencStr p).2
  let (name, p) := readLenencStr (skip (skip (skip (skip p))))
  let p := (skip p).drop 1
  let p := if 2 ≤ p.length then p.drop 2 else p
  let p := if 4 ≤ p.length then p.drop 4 else p
  ⟨name, p.headD 0xFE⟩

/-- The test for the end of the rows. -/
def endOfRows : Bytes → Bool
  | [] => true
  | b :: _ => b = 0xFE || b = 0xFF

/-- `SERVER_STATUS_IN_TRANS` of an EOF packet. -/
def statusOf (p : Bytes) (inTxn : Bool) : Bool :=
  if 5 ≤ p.length ∧ p.length < 9 ∧ p.headD 0 = 0xFE then (p.getD 3 0).toNat.testBit 0 else inTxn

namespace Client

open Exec

def send (bytes : Bytes) : Exec Client Error Unit :=
  modify fun c => { c with sent := c.sent ++ bytes }

def packet : Exec Client Error Bytes := fun c =>
  match readPacket c.conn with
  | .ok (payload, _) conn => .ok payload { c with conn }
  | .error e conn => .error e { c with conn }
  | .timeout => .timeout

def columns : Nat → Exec Client Error (List ColInfo)
  | 0 => pure []
  | n + 1 => do
    let p ← packet
    let cols ← columns n
    pure (readColumn p :: cols)

def rowLoop (decode : Bytes → DbRow) : Nat → Exec Client Error (List DbRow)
  | 0 => timeout
  | fuel + 1 => do
    let p ← packet
    modify fun c => { c with inTxn := statusOf p c.inTxn }
    if endOfRows p then pure []
    else do
      let rows ← rowLoop decode fuel
      pure (decode p :: rows)

/-- Every turn of the loop takes a packet, so that it has as many turns as bytes at most. -/
def rows (decode : Bytes → DbRow) : Exec Client Error (List DbRow) := fun c =>
  rowLoop decode ((c.conn.getD []).length + 1) c

/-- `MYSQL_MAX_COLUMNS`. -/
def maxColumns : Nat := 65535

def resultSet (decode : List ColInfo → Bytes → DbRow) (resp : Bytes) :
    Exec Client Error (List DbRow) := do
  let count := (readLenenc resp).1
  if maxColumns < count then
    throw (ascii "db mysql: column count limit exceeded (malicious server?)")
  else
    let cols ← columns count
    let _ ← packet
    rows (decode cols)

/-- An OK packet. -/
def okPacket (resp : Bytes) : Exec Client Error (List DbRow) := do
  let (affected, p) := readLenenc (resp.drop 1)
  let (last, p) := readLenenc p
  modify fun c =>
    { c with
      affectedRows := UInt64.ofNat affected
      lastInsertId := UInt64.ofNat last
      inTxn := if 2 ≤ p.length then (p.headD 0).toNat.testBit 0 else c.inTxn }
  pure []

/-- The error of `query`. -/
def queryError (resp : Bytes) : Error :=
  let p := resp.drop 1
  let (code, p) := if 2 ≤ p.length then (ofLe (p.take 2), p.drop 2) else (0, p)
  let p := if p.head? = some 0x23 then p.drop 6 else p
  ascii "db: query error " ++ intText code ++ ascii ": " ++ p

/-- The error of `stmt_execute`. -/
def stmtError (resp : Bytes) : Error :=
  let p := resp.drop 1
  let p := if 2 ≤ p.length then p.drop 2 else []
  let p := if p.head? = some 0x23 ∧ 6 ≤ p.length then p.drop 6 else p
  ascii "db: " ++ p

def reply (empty : Error) (error : Bytes → Error) (decode : List ColInfo → Bytes → DbRow) :
    Exec Client Error (List DbRow) := do
  let resp ← packet
  match resp.head? with
  | none => throw empty
  | some b =>
    if b = 0xFF then throw (error resp)
    else if b = 0x00 then okPacket resp
    else resultSet decode resp

/-- `query`, on a connection that takes what is sent. -/
def query (sql : Bytes) : Exec Client Error (List DbRow) := do
  send (sendPacket (0x03 :: sql) 0)
  reply (ascii "db: empty response") queryError textRow

/-- `stmt_execute`, likewise. -/
def stmtExecute (m : StmtMeta) (params : List DbParam) : Exec Client Error (List DbRow) :=
  match Mysql.stmtExecute m params with
  | .error e => throw e
  | .ok wire => do
    send wire
    reply (ascii "db: stmt_execute empty response") stmtError binaryRow

end Client

end Mysql

end Look
