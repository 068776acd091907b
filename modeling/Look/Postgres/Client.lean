/-
`PostgresClient`: a request and the messages that answer it.

`simple_query` and `extended_query_raw` send different messages and read the answer in the
same way.  A failed read or write of the socket closes it.  The answer ends with a
ReadyForQuery message, also after an error.
-/
import Mathlib.Algebra.Group.Int.Defs
import Mathlib.Algebra.Group.Nat.Defs
import Look.Db.Result
import Look.Lib.BigEndian
import Look.Lib.Socket

namespace Look

namespace Postgres

abbrev Bytes := List UInt8

/-- The text of a `runtime_error`. -/
abbrev Error := Bytes

def utf8 (s : String) : Bytes := s.toUTF8.data.toList

/-- `PgMsg`. -/
structure Message where
  type : UInt8
  body : Bytes
deriving DecidableEq

/-- The state of the client.  The connection takes `room` more bytes before a write fails,
or any number of them. -/
structure Client where
  conn : Conn UInt8
  sent : Bytes
  room : Option Nat
  inTxn : Bool
  affectedRows : Int64

structure ColInfo where
  name : Bytes
  typeCode : UInt8

/-! ## Message bodies -/

def oidToType (oid : Nat) : UInt8 :=
  if oid = 20 ∨ oid = 21 ∨ oid = 23 ∨ oid = 26 ∨ oid = 16000 then PgType.int
  else if oid = 700 ∨ oid = 701 ∨ oid = 1700 then PgType.float
  else if oid = 16 then PgType.bool
  else 0xFE

/-- The loop over the columns of a RowDescription. -/
def describe : Nat → Bytes → List ColInfo
  | 0, _ => []
  | n + 1, p =>
    if p = [] then []
    else
      let name := p.takeWhile (· ≠ 0)
      let p := p.drop (name.length + 1)
      if p.length < 6 then []
      else
        let p := p.drop 6
        if p.length < 4 then []
        else
          let oid := ofBytes (p.take 4)
          let p := p.drop 4
          ⟨name, oidToType oid⟩ :: describe n (if 8 ≤ p.length then p.drop 8 else p)

/-- The columns of a RowDescription. -/
def rowDescription (body : Bytes) : List ColInfo :=
  if body.length < 2 then [] else describe (ofBytes (body.take 2)) (body.drop 2)

def malformed (text : Bytes) : Error := utf8 "db postgres: malformed DataRow — " ++ text

/-- A cell of the column `i`. -/
def cell (columns : List ColInfo) (i : Nat) (value : Option Bytes) : Bytes × DbValue :=
  let (name, type) := match columns[i]? with
    | some col => (col.name, col.typeCode)
    | none => (ascii "col" ++ intText i, 0xFE)
  match value with
  | none => (name, ⟨[], PgType.nul, true⟩)
  | some val => (name, ⟨val, type, false⟩)

/-- The loop over the last `n` of `ncols` fields of a DataRow. -/
def fields (columns : List ColInfo) (ncols : Nat) : Nat → Bytes → Except Error DbRow
  | 0, _ => .ok []
  | n + 1, p =>
    let i := ncols - (n + 1)
    if p.length < 4 then
      .error (malformed (intText ncols ++ utf8 " fields declared, " ++ intText i ++
        utf8 " fields received"))
    else
      let len := ofBytes (p.take 4)
      let p := p.drop 4
      if len = 2 ^ 32 - 1 then do
        let row ← fields columns ncols n p
        pure (cell columns i none :: row)
      else if 2 ^ 31 ≤ len then
        .error (malformed (utf8 "invalid field length " ++ intText (len - 2 ^ 32)))
      else if p.length < len then
        .error (malformed (utf8 "field length " ++ intText len ++ utf8 " govdede kalan " ++
          intText p.length ++ utf8 " bayti asiyor"))
      else do
        let row ← fields columns ncols n (p.drop len)
        pure (cell columns i (some (p.take len)) :: row)

/-- The row of a DataRow of two bytes or more. -/
def dataRow (columns : List ColInfo) (body : Bytes) : Except Error DbRow :=
  let ncols := ofBytes (body.take 2)
  fields columns ncols ncols (body.drop 2)

/-- The text behind the last blank. -/
def lastWord (tag : Bytes) : Option Bytes :=
  if 0x20 ∈ tag then some (tag.reverse.takeWhile (· ≠ 0x20)).reverse else none

/-- The number of rows in a CommandComplete. -/
def affected (body : Bytes) (before : Int64) : Int64 :=
  match lastWord body.dropLast with
  | none => before
  | some word =>
    match stoll (chars word) with
    | .ok n _ => n
    | _ => before

/-- The status in a ReadyForQuery. -/
def inTransaction (body : Bytes) : Bool := !body.isEmpty && body.headD 0 ≠ 0x49

/-- `pg_parse_error`: the field `M`. -/
def parseErrorLoop : Nat → Bytes → Bytes
  | 0, _ => ascii "unknown error"
  | _ + 1, [] => ascii "unknown error"
  | fuel + 1, ft :: p =>
    if ft = 0 then ascii "unknown error"
    else
      let fv := p.takeWhile (· ≠ 0)
      if ft = 0x4D then fv else parseErrorLoop fuel (p.drop (fv.length + 1))

def parseError (body : Bytes) : Bytes := parseErrorLoop body.length body

namespace Client

open Exec Conn

/-! ## Writing -/

def sendBytes (bytes : Bytes) : Exec Client Error Unit := fun c =>
  match c.room with
  | none => .ok () { c with sent := c.sent ++ bytes }
  | some n =>
    if bytes.length ≤ n then
      .ok () { c with sent := c.sent ++ bytes, room := some (n - bytes.length) }
    else .error (utf8 "db postgres: send failed — connection lost") { c with conn := none }

def sendMessage (type : UInt8) (body : Bytes) : Exec Client Error Unit := do
  sendBytes (type :: toBytes 4 (4 + body.length))
  if body = [] then pure () else sendBytes body

/-- The loop that numbers the placeholders; `quote` is the quotation mark of the string that
the loop is in. -/
def placeholders : Option UInt8 → Nat → Bytes → Bytes
  | _, _, [] => []
  | none, idx, c :: sql =>
    if c = 0x27 ∨ c = 0x22 then c :: placeholders (some c) idx sql
    else if c = 0x3F then 0x24 :: (intText (idx + 1) ++ placeholders none (idx + 1) sql)
    else c :: placeholders none idx sql
  | some quote, idx, [c] => c :: placeholders (if c = quote then none else some quote) idx []
  | some quote, idx, c :: d :: sql =>
    if c = quote then
      if d = quote then c :: d :: placeholders (some quote) idx sql
      else c :: placeholders none idx (d :: sql)
    else c :: placeholders (some quote) idx (d :: sql)

section Request

variable [DoubleOps]

/-- A parameter of a Bind message. -/
def bindParam : DbParam → Bytes
  | .null => [0xFF, 0xFF, 0xFF, 0xFF]
  | .int i => sized (intText i.toInt)
  | .float d => sized (ascii (DoubleOps.format d))
  | .bool b => sized (ascii (if b then "true" else "false"))
  | .text s => sized s
where
  sized (vs : Bytes) : Bytes := toBytes 4 vs.length ++ vs

def bindBody (params : List DbParam) : Bytes :=
  [0, 0, 0, 0] ++ toBytes 2 params.length ++ params.flatMap bindParam ++ [0, 0]

def sendExtended (sql : Bytes) (params : List DbParam) : Exec Client Error Unit := do
  sendMessage 0x50 (0 :: (placeholders none 0 sql ++ [0, 0, 0]))
  sendMessage 0x42 (bindBody params)
  sendMessage 0x44 [0x50, 0]
  sendMessage 0x45 [0, 0, 0, 0, 0]
  sendMessage 0x53 []

end Request

/-! ## Reading -/

variable (maxMsg : Nat)

/-- `read_message`; `maxMsg` is `PG_MAX_MSG`. -/
def readMessage : Exec (Conn UInt8) Error Message := do
  let type ← recv (utf8 "db postgres: connection lost") 1
  let lb ← recv (utf8 "db postgres: connection lost reading length") 4
  let len := ofBytes lb
  if len < 4 then throw (utf8 "db postgres: invalid message length")
  else if maxMsg < len - 4 then
    throw (utf8 "db postgres: message size limit exceeded (LOOK_PG_MAX_MSG)")
  else
    let body ←
      (if 0 < len - 4 then recv (utf8 "db postgres: connection lost reading body") (len - 4)
      else pure [])
    pure ⟨type.headD 0, body⟩

/-- `read_message` in the loop over the answer: every error closes the socket. -/
def readOrClose : Exec Client Error Message := fun c =>
  match readMessage maxMsg c.conn with
  | .ok m conn => .ok m { c with conn }
  | .error e _ => .error e { c with conn := none }
  | .timeout => .timeout

/-- The loop behind an error, which ends with the first read that fails. -/
def drainLoop : Nat → Exec Client Error Unit
  | 0 => timeout
  | fuel + 1 => fun c =>
    match readMessage maxMsg c.conn with
    | .ok m conn =>
      if m.type = 0x5A then .ok () { c with conn, inTxn := inTransaction m.body }
      else drainLoop fuel { c with conn }
    | .error _ conn => .ok () { c with conn }
    | .timeout => .timeout

/-- A loop over messages has as many turns as there are bytes at most. -/
def drain : Exec Client Error Unit := fun c => drainLoop maxMsg ((c.conn.getD []).length + 1) c

def answerLoop : Nat → List ColInfo → List DbRow → Exec Client Error (List DbRow)
  | 0, _, _ => timeout
  | fuel + 1, columns, rows => do
    let msg ← readOrClose maxMsg
    if msg.type = 0x54 then answerLoop fuel (rowDescription msg.body) rows
    else if msg.type = 0x44 then
      if msg.body.length < 2 then answerLoop fuel columns rows
      else
        match dataRow columns msg.body with
        | .error e => throw e
        | .ok row => answerLoop fuel columns (rows ++ [row])
    else if msg.type = 0x43 then do
      modify fun c => { c with affectedRows := affected msg.body c.affectedRows }
      answerLoop fuel columns rows
    else if msg.type = 0x5A then do
      modify fun c => { c with inTxn := inTransaction msg.body }
      pure rows
    else if msg.type = 0x45 then do
      drain maxMsg
      throw (utf8 "db postgres: " ++ parseError msg.body)
    else answerLoop fuel columns rows

def answer : Exec Client Error (List DbRow) := fun c =>
  answerLoop maxMsg ((c.conn.getD []).length + 1) [] [] { c with affectedRows := 0 }

def simpleQuery (sql : Bytes) : Exec Client Error (List DbRow) := do
  sendMessage 0x51 (sql ++ [0])
  answer maxMsg

def extendedQueryRaw [DoubleOps] (sql : Bytes) (params : List DbParam) :
    Exec Client Error (List DbRow) := do
  sendExtended sql params
  answer maxMsg

end Client

end Postgres

end Look
