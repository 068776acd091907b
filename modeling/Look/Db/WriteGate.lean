/-
The write gate of SQLite: `SqliteWriteGate`, `SqliteClient::gate_before`, `gate_after` and
`close`.

The connections of a process that write to one file take turns.  A connection draws a ticket
before a statement that writes or begins a transaction, and keeps the gate until a statement
ends with no transaction open.  In a fiber it takes the gate only if it is free, and waits for
it on a thread of its own otherwise.  A step is one critical section of the gate, with what the
connection does before or after it on its own.

The gates are found by the path of a connection, and a file has more than one path.  What SQLite
does with a statement is not modelled: it says whether the statement is read-only, and whether
`autocommit` is on after it.
-/
import Look.Lib.Reach
import Look.Lib.Tickets
import Mathlib.Logic.Function.Basic

namespace Look

namespace WriteGate

abbrev SqliteWriteGate := Tickets

/-- What `acquire` does at once: the ticket is drawn, and is served if it is its turn. -/
def acquire (gate : SqliteWriteGate) : Bool × SqliteWriteGate :=
  if gate.serving = gate.next then (true, gate.draw.serve) else (false, gate.draw)

def tryAcquire (gate : SqliteWriteGate) : Bool × SqliteWriteGate :=
  if gate.serving ≠ gate.next then (false, gate) else (true, gate.draw.serve)

/-- `std::isspace` of an ASCII character. -/
def isspace (c : Char) : Bool :=
  c == ' ' || ('\t' ≤ c && c ≤ '\r')

/-- `sqlite_starts_begin`. -/
def startsBegin (sql : String) : Bool :=
  ((sql.toList.dropWhile isspace).take 5).map Char.toUpper == "BEGIN".toList

/-- Where the query of a connection is. -/
inductive Phase where
  | idle
  /-- The statement runs. -/
  | running
  /-- It has a ticket. -/
  | waiting (ticket : Nat)
  /-- It was in a fiber and the gate was busy: the query starts again on its own thread. -/
  | retrying
deriving DecidableEq

structure Connection where
  /-- `db_` is not null. -/
  connected : Bool
  /-- The path of `gate_`. -/
  gate : Option String
  gateHeld : Bool
  /-- `sqlite3_get_autocommit`. -/
  autocommit : Bool
  phase : Phase
deriving DecidableEq

structure State (C : Type) where
  gates : String → SqliteWriteGate
  conns : C → Connection

inductive Action (C : Type) where
  | opens (c : C) (path : String)
  | close (c : C)
  /-- `gate_before`. -/
  | gateBefore (c : C) (readonly : Bool) (sql : String) (inFiber : Bool)
  /-- The query on the thread of the connection. -/
  | retry (c : C)
  /-- `wait_for` returns true. -/
  | served (c : C)
  /-- `wait_for` returns false. -/
  | timeOut (c : C)
  /-- The statement has ended, and `gate_after`. -/
  | ends (c : C) (autocommit : Bool)
deriving DecidableEq

namespace State

variable {C : Type}

def start : State C where
  gates _ := .start
  conns _ := ⟨false, none, false, true, .idle⟩

variable [DecidableEq C] (s : State C) (c : C)

def setConn (conn : Connection) : State C :=
  { s with conns := Function.update s.conns c conn }

def setGate (path : String) (gate : SqliteWriteGate) : State C :=
  { s with gates := Function.update s.gates path gate }

/-- `gate_held_ = false; gate_->release()`, when the connection has the gate. -/
def letGo : State C :=
  match (s.conns c).gate, (s.conns c).gateHeld with
  | some path, true =>
    (s.setGate path (s.gates path).release).setConn c { s.conns c with gateHeld := false }
  | _, _ => s

/-- `acquire` of the gate for the statement. -/
def queue (path : String) : State C :=
  let (now, gate) := acquire (s.gates path)
  let conn := s.conns c
  (s.setGate path gate).setConn c
    (if now then { conn with gateHeld := true, phase := .running }
      else { conn with phase := .waiting (s.gates path).next })

end State

variable {C : Type}

section Step

variable [DecidableEq C]

/-- One step; nothing when it cannot happen. -/
def step (s : State C) : Action C → Option (State C)
  | .opens c path =>
    let conn := s.conns c
    if conn.phase = .idle ∧ conn.connected = false then
      some (s.setConn c { conn with
        connected := true
        gate := if path = ":memory:" then none else some path })
    else none
  | .close c =>
    if (s.conns c).phase = .idle ∧ (s.conns c).connected = true then
      let freed := s.letGo c
      some (freed.setConn c { freed.conns c with connected := false, autocommit := true })
    else none
  | .gateBefore c readonly sql inFiber =>
    let conn := s.conns c
    if conn.phase = .idle ∧ conn.connected = true then
      match conn.gate with
      | none => some (s.setConn c { conn with phase := .running })
      | some path =>
        if conn.gateHeld = true ∨ (readonly = true ∧ startsBegin sql = false) then
          some (s.setConn c { conn with phase := .running })
        else if inFiber then
          let (taken, gate) := tryAcquire (s.gates path)
          if taken then
            some ((s.setGate path gate).setConn c { conn with gateHeld := true, phase := .running })
          else some (s.setConn c { conn with phase := .retrying })
        else some (s.queue c path)
    else none
  | .retry c =>
    match (s.conns c).phase, (s.conns c).gate with
    | .retrying, some path => some (s.queue c path)
    | _, _ => none
  | .served c =>
    match (s.conns c).phase, (s.conns c).gate with
    | .waiting ticket, some path =>
      if (s.gates path).serving = ticket then
        some ((s.setGate path (s.gates path).serve).setConn c
          { s.conns c with gateHeld := true, phase := .running })
      else none
    | _, _ => none
  | .timeOut c =>
    match (s.conns c).phase, (s.conns c).gate with
    | .waiting ticket, some path =>
      if (s.gates path).serving ≠ ticket then
        some ((s.setGate path ((s.gates path).giveUp ticket)).setConn c
          { s.conns c with phase := .idle })
      else none
    | _, _ => none
  | .ends c autocommit =>
    if (s.conns c).phase = .running then
      let ended := s.setConn c { s.conns c with autocommit := autocommit, phase := .idle }
      some (if autocommit then ended.letGo c else ended)
    else none

def Step (s : State C) (a : Action C) (s' : State C) : Prop :=
  step s a = some s'

end Step

/-! ## What the gate is for -/

section Fair

variable {F : Type} (file : String → F)

/-- One connection of a file has the gate, tickets are served in order, and the gate waits for
nobody who has given up and is not kept by a connection without a transaction. -/
structure Fair (s : State C) : Prop where
  sole : ∀ {c c' path path'}, (s.conns c).gate = some path → (s.conns c').gate = some path' →
    file path = file path' → (s.conns c).gateHeld = true → (s.conns c').gateHeld = true → c = c'
  inOrder : ∀ path, (s.gates path).served.Pairwise (· > ·) ∧
    ∀ {c t}, (s.conns c).gate = some path → (s.conns c).phase = .waiting t →
      ∀ n ∈ (s.gates path).served, n < t
  passed : ∀ path, (∀ c, (s.conns c).gate = some path → (s.conns c).gateHeld = false) →
    (s.gates path).serving = (s.gates path).next ∨
      ∃ c, (s.conns c).gate = some path ∧ (s.conns c).phase = .waiting (s.gates path).serving
  released : ∀ c, (s.conns c).phase = .idle → (s.conns c).autocommit = true →
    (s.conns c).gateHeld = false

/-- The connections of a file are all opened with the same path. -/
def SamePath (s : State C) : Action C → Prop
  | .opens _ path => ∀ c path', (s.conns c).connected = true → (s.conns c).gate = some path' →
      file path' = file path → path' = path
  | _ => True

end Fair

end WriteGate

end Look
