/-
`RespClient`: reading a reply, and how the session storage uses the connection.

The reader throws on an error that the server reports, also from inside an array, and then
leaves what it has not read.  The session storage drops its connection after every throw
and opens another one for the next command.
-/
import Look.Decimal
import Look.Lib.Socket

namespace Look

namespace Redis

abbrev Bytes := List UInt8

/-- The text of a `runtime_error`. -/
abbrev Error := Bytes

/-! ## Reading -/

/-- `RESP_MAX_LINE`. -/
def maxLine : Nat := 64 * 1024

/-- The loop of `read_line`, and what it has not read. -/
def lineLoop (line : Bytes) : Bytes → Except Error Bytes × Bytes
  | [] => (.error (ascii "Redis: connection closed"), [])
  | c :: s =>
    if c = 0x0D then lineLoop line s
    else if c = 0x0A then (.ok line, s)
    else if maxLine < (line ++ [c]).length then (.error (ascii "Redis: line limit exceeded"), s)
    else lineLoop (line ++ [c]) s

open Exec Conn

def readLine : Exec (Conn UInt8) Error Bytes
  | none => .error (ascii "Redis: connection closed") none
  | some s =>
    match lineLoop [] s with
    | (.ok line, s) => .ok line (some s)
    | (.error e, s) => .error e (some s)

/-- The bytes of a bulk string. -/
def recvBulk (n : Nat) : Exec (Conn UInt8) Error Bytes
  | none => .error (ascii "Redis: connection closed reading bulk") none
  | some s =>
    if n ≤ s.length then .ok (s.take n) (some (s.drop n))
    else .error (ascii "Redis: connection closed reading bulk") (some [])

/-- `std::stol` of a length. -/
def stol (payload : Bytes) : Option Int :=
  match stoll (chars payload) with
  | .ok i _ => some i.toInt
  | _ => none

/-- `RESP_MAX_ARRAY`. -/
def maxArray : Nat := 1024 * 1024

variable (maxBulk : Nat)

/-- `read_bulk`; `maxBulk` is `LOOK_REDIS_MAX_BULK`. -/
def readBulk (len : Int) : Exec (Conn UInt8) Error Bytes :=
  if len < 0 then pure []
  else if maxBulk < len.toNat then
    throw (ascii "Redis: bulk response limit exceeded (LOOK_REDIS_MAX_BULK)")
  else do
    let buf ← recvBulk len.toNat
    let _ ← readLine
    pure buf

/-- The rest of a reply behind its first line; `element` reads an element of an array. -/
def readTyped (element : Exec (Conn UInt8) Error Bytes) : Bytes → Exec (Conn UInt8) Error Bytes
  | [] => throw (ascii "Redis: empty response")
  | type :: payload =>
    if type = 0x2B then pure payload
    else if type = 0x2D then throw (ascii "Redis: " ++ payload)
    else if type = 0x3A then pure payload
    else if type = 0x24 then
      match stol payload with
      | none => throw (ascii "Redis: invalid bulk length")
      | some len => if len = -1 then pure [] else readBulk maxBulk len
    else if type = 0x2A then
      match stol payload with
      | none => throw (ascii "Redis: invalid array count")
      | some count =>
        if count ≤ 0 then pure []
        else if maxArray < count.toNat then
          throw (ascii "Redis: array element count limit exceeded")
        else do
          let elements ← mapEach (List.range count.toNat) fun _ => element
          pure (elements.headD [])
    else throw (ascii "Redis: unknown response type " ++ [type])

/-- `read_response`, with the number of levels that are left. -/
def readLevel : Nat → Exec (Conn UInt8) Error Bytes
  | 0 => throw (ascii "Redis: response nested too deep (array)")
  | depth + 1 => do
    let line ← readLine
    readTyped maxBulk (readLevel depth) line

/-- `RESP_MAX_DEPTH`. -/
def maxDepth : Nat := 64

def readResponse : Exec (Conn UInt8) Error Bytes := readLevel maxBulk (maxDepth + 1)

/-! ## The session storage -/

/-- A command of `sess_load`, `sess_store` or `sess_remove`, to which the server sends
`reply`: `session_redis` opens a connection when there is none, and `sess_redis_warn` drops
it after a throw. -/
def sessionCommand (reply : Bytes) : Exec (Conn UInt8) Error Bytes := fun redis =>
  match readResponse maxBulk (some (redis.getD [] ++ reply)) with
  | .ok v redis => .ok v redis
  | .error e _ => .error e none
  | .timeout => .timeout

/-- What the commands of a thread get, one after the other. -/
def session : List Bytes → Conn UInt8 → List (Except Error Bytes)
  | [], _ => []
  | reply :: replies, redis =>
    match sessionCommand maxBulk reply redis with
    | .ok v redis => .ok v :: session replies redis
    | .error e redis => .error e :: session replies redis
    | .timeout => []

end Redis

end Look
