/-
The MySQL and the PostgreSQL client when connections are lost.

`in_txn_` is what the server has said last.  Before it sends, a client looks whether the
socket was closed while it was idle; a connection that was lost inside a transaction is
reported and not replaced.  A statement that could not be sent is sent again on a new
connection: PostgreSQL checks `in_txn_` first, MySQL does not.  PostgreSQL sends a
prepared statement as five messages and the server executes it when the fourth arrives,
so that the failure to send the fifth does not mean that nothing was executed.

The network and the server are given by the fate of each call.  A session is a connection
on the server's side; `begun`, `log` and `issued` are not in the source.
-/
import Mathlib.Data.List.Nodup
import Look.Lib.Reach

namespace Look

namespace DbClient

inductive Driver where
  | mysql
  | postgres
deriving DecidableEq

/-- A server has executed the statement of a call on a session. -/
structure Entry where
  stmt : Nat
  session : Nat
deriving DecidableEq

structure Client where
  driver : Driver
  /-- The session of `sock_`, if the socket is valid. -/
  sock : Option Nat
  inTxn : Bool
  /-- The number of sessions so far. -/
  sessions : Nat
  /-- The session on which the transaction was begun, while `inTxn`. -/
  begun : Nat
  log : List Entry
  /-- The number of calls so far. -/
  issued : Nat
deriving DecidableEq

/-- A client that has connected. -/
def Client.start (driver : Driver) : Client := ⟨driver, some 0, false, 1, 0, [], 0⟩

inductive Outcome where
  | ok
  /-- An exception while sending. -/
  | sendError
  | error
deriving DecidableEq

/-- What the server says: it is done, or an error.  Both may say whether a transaction is
open; an error packet of MySQL does not. -/
inductive Answer where
  | ok (inTxn : Bool)
  | error (inTxn : Option Bool)
deriving DecidableEq

/-- A request and its answer: the message that could not be sent, the number of messages
that had arrived when the connection was lost, and whether the answer could be read. -/
structure Trip where
  sendFails : Option Nat
  arrived : Nat
  readFails : Bool
  answer : Answer
deriving DecidableEq

/-- The server executes a request of `count` messages when the message `execAt` arrives. -/
def Trip.executes (t : Trip) (count execAt : Nat) : Bool :=
  match t.sendFails with
  | some j => decide (execAt < min (min j (count - 1)) t.arrived)
  | none => !t.readFails || decide (execAt < t.arrived)

/-- `do_connect`: it throws, and may leave a socket open, or it returns.  The MySQL client
then has sent a `SET SESSION`, whose answer may have been lost with the socket, and which
has set `in_txn_` if it was read. -/
inductive Connect where
  | failed (isOpen : Bool)
  | done (isOpen cleared : Bool)
deriving DecidableEq

/-- What happens to a call. -/
structure Fate where
  /-- `idle_socket_unusable`, and the attempts to connect after it. -/
  idle : Bool
  connect : Connect
  /-- The same in `stmt_prepare`, its request, and whether `stmt_close` fails. -/
  prepareIdle : Bool
  prepareConnect : Connect
  prepare : Trip
  closeFails : Bool
  /-- The request for the serial column of an `INSERT`, and the statement. -/
  lookup : Option Trip
  first : Trip
  /-- The connection after a failure to send, and what is sent again. -/
  again : Connect
  lookupAgain : Option Trip
  second : Trip
deriving DecidableEq

namespace Client

variable (c : Client)

def disconnect : Client := { c with sock := none }

def doConnect : Connect → Client × Bool
  | .failed isOpen =>
    ({ c with sock := if isOpen then some c.sessions else none, sessions := c.sessions + 1 }, false)
  | .done isOpen cleared =>
    ({ c with
        sock := if isOpen then some c.sessions else none
        sessions := c.sessions + 1
        inTxn := c.inTxn && !cleared }, true)

/-- A socket that the server has closed while it was idle is closed here too. -/
def dropIdle (idle : Bool) : Client := if idle then c.disconnect else c

/-- `MySQLClient::ensure_connected`. -/
def ensureConnected (idle : Bool) (connect : Connect) : Client × Outcome :=
  let c := c.dropIdle idle
  if c.sock.isSome then (c, .ok)
  else if c.inTxn then ({ c with inTxn := false }, .error)
  else
    match c.doConnect connect with
    | (c, true) => (c, .ok)
    | (c, false) => (c, .error)

/-- `PostgresClient::ready_to_send`. -/
def readyToSend (idle : Bool) (connect : Connect) : Client × Outcome :=
  let c := c.dropIdle idle
  if c.sock.isSome then (c, .ok)
  else if c.inTxn then ({ c with inTxn := false }, .error)
  else
    let c := (c.doConnect connect).1
    if c.sock.isSome then (c, .ok) else (c, .error)

/-- The server has executed the statement of this call on the session. -/
def record (session : Nat) (executed : Bool) : Client :=
  if executed then { c with log := c.log ++ [⟨c.issued, session⟩] } else c

/-- `in_txn_` as the server says on the session. -/
def setTxn (session : Nat) (inTxn : Bool) : Client :=
  { c with inTxn := inTxn, begun := if c.inTxn then c.begun else session }

/-- A request with the statement of this call. -/
def trip (count execAt : Nat) (t : Trip) : Client × Outcome :=
  match c.sock with
  | none => (c, .sendError)
  | some session =>
    let c := c.record session (t.executes count execAt)
    if t.sendFails.isSome then (c.disconnect, .sendError)
    else if t.readFails then (c.disconnect, .error)
    else
      match t.answer with
      | .ok inTxn => (c.setTxn session inTxn, .ok)
      | .error (some inTxn) => (c.setTxn session inTxn, .error)
      | .error none => (c, .error)

/-- A request that executes nothing of the caller and leaves a transaction as it is:
`COM_STMT_PREPARE` and the query of `serial_column`. -/
def sideTrip (t : Trip) : Client × Outcome :=
  match c.sock with
  | none => (c, .sendError)
  | some _ =>
    if t.sendFails.isSome then (c.disconnect, .sendError)
    else if t.readFails then (c.disconnect, .error)
    else
      match t.answer with
      | .ok _ => (c, .ok)
      | .error _ => (c, .error)

/-- `MySQLClient::query`.  The handler of `send_packet` does not look at `in_txn_`. -/
def mysqlQuery (f : Fate) : Client × Outcome :=
  match c.ensureConnected f.idle f.connect with
  | (c, .ok) =>
    match c.trip 1 0 f.first with
    | (c, .sendError) =>
      match c.doConnect f.again with
      | (c, true) => c.trip 1 0 f.second
      | (c, false) => (c, .error)
    | r => r
  | r => r

/-- `MySQLClient::execute`, with `stmt_prepare`, `stmt_execute` and `stmt_close`. -/
def mysqlExecute (f : Fate) : Client × Outcome :=
  match c.ensureConnected f.idle f.connect with
  | (c, .ok) =>
    match c.ensureConnected f.prepareIdle f.prepareConnect with
    | (c, .ok) =>
      match c.sideTrip f.prepare with
      | (c, .ok) =>
        match c.trip 1 0 f.first with
        | (c, .ok) => (if f.closeFails then c.disconnect else c, .ok)
        | r => r
      | r => r
    | r => r
  | r => r

/-- `simple_query`. -/
def simpleQuery (t : Trip) : Client × Outcome := c.trip 1 0 t

/-- `extended_query`: `Parse`, `Bind`, `Describe`, `Execute` and `Sync`, and before it the
query of `serial_column`. -/
def extendedQuery (lookup : Option Trip) (t : Trip) : Client × Outcome :=
  match lookup with
  | none => c.trip 5 3 t
  | some l =>
    match c.sideTrip l with
    | (c, .ok) => c.trip 5 3 t
    | r => r

/-- What `PostgresClient::query` and `PostgresClient::execute` do around a request. -/
def retrying (f : Fate) (first second : Client → Client × Outcome) : Client × Outcome :=
  match c.readyToSend f.idle f.connect with
  | (c, .ok) =>
    match first c with
    | (c, .sendError) =>
      if c.inTxn then ({ c with inTxn := false }, .error)
      else
        match c.doConnect f.again with
        | (c, true) => second c
        | (c, false) => (c, .error)
    | r => r
  | r => r

/-- `PostgresClient::query`. -/
def postgresQuery (f : Fate) : Client × Outcome :=
  c.retrying f (fun c => c.simpleQuery f.first) fun c => c.simpleQuery f.second

/-- `PostgresClient::execute`. -/
def postgresExecute (f : Fate) : Client × Outcome :=
  c.retrying f (fun c => c.extendedQuery f.lookup f.first) fun c =>
    c.extendedQuery f.lookupAgain f.second

end Client

/-- A call of `query`, or of `execute` when it is prepared. -/
structure Call where
  prepared : Bool
  fate : Fate
deriving DecidableEq

def Client.call (c : Client) (a : Call) : Client × Outcome :=
  match c.driver, a.prepared with
  | .mysql, false => c.mysqlQuery a.fate
  | .mysql, true => c.mysqlExecute a.fate
  | .postgres, false => c.postgresQuery a.fate
  | .postgres, true => c.postgresExecute a.fate

/-- A call, and the next one has another number. -/
def Client.perform (c : Client) (a : Call) : Client × Outcome :=
  ({ (c.call a).1 with issued := c.issued + 1 }, (c.call a).2)

def Step (c : Client) (a : Call) (c' : Client) : Prop := (c.perform a).1 = c'

/-- `MySQLClient::query` does not fail to send inside a transaction, and
`PostgresClient::execute` does not fail to send outside of one after `Execute` has
arrived. -/
def careful (c : Client) (a : Call) : Bool :=
  match c.driver, a.prepared with
  | .mysql, false =>
    !(c.inTxn && (c.sock.isSome && !a.fate.idle) && a.fate.first.sendFails.isSome)
  | .postgres, true => c.inTxn || !(a.fate.first.sendFails.isSome && a.fate.first.executes 5 3)
  | _, _ => true

/-! ## Inside a call -/

/-- Between the start of a call and its statement: nothing was executed, and a socket that
is open inside a transaction leads to the session on which it was begun. -/
structure During (c d : Client) : Prop where
  same : d.inTxn = true → ∀ k, d.sock = some k → k = d.begun
  held : c.inTxn = true → ∀ k, d.sock = some k → k = c.begun
  issued : d.issued = c.issued
  log : d.log = c.log

/-- After a call: its statement was executed at most once, inside a transaction on the
session on which it was begun, and was executed if the call has returned. -/
structure Ended (c d : Client) (o : Outcome) : Prop where
  same : d.inTxn = true → ∀ k, d.sock = some k → k = d.begun
  issued : d.issued = c.issued
  log : (o ≠ .ok ∧ d.log = c.log) ∨
    ∃ k, d.log = c.log ++ [⟨c.issued, k⟩] ∧ (c.inTxn = true → k = c.begun)

section Calls

variable {c d : Client} {o : Outcome} {t : Trip} {count execAt : Nat}

theorem During.ended (h : During c d) (ho : o ≠ .ok) : Ended c d o :=
  ⟨h.same, h.issued, .inl ⟨ho, h.log⟩⟩

theorem During.disconnect (h : During c d) : During c d.disconnect :=
  ⟨nofun, nofun, h.issued, h.log⟩

theorem During.clearTxn (h : During c d) : During c { d with inTxn := false } :=
  ⟨nofun, h.held, h.issued, h.log⟩

/-- Outside of a transaction any session will do. -/
theorem During.doConnect (h : During c d) (hc : c.inTxn = false) (hd : d.inTxn = false)
    (connect : Connect) :
    During c (d.doConnect connect).1 ∧ (d.doConnect connect).1.inTxn = false := by
  have hheld : ∀ x : Client, c.inTxn = true → ∀ k, x.sock = some k → k = c.begun :=
    fun _ htrue => absurd (hc.symm.trans htrue) nofun
  cases connect with
  | failed isOpen =>
    refine ⟨⟨fun htrue => absurd (hd.symm.trans htrue) nofun, hheld _, h.issued, h.log⟩, hd⟩
  | done isOpen cleared =>
    have hfalse : (d.inTxn && !cleared) = false := by rw [hd, Bool.false_and]
    exact ⟨⟨fun htrue => absurd (hfalse.symm.trans htrue) nofun, hheld _, h.issued, h.log⟩, hfalse⟩

theorem During.dropIdle (h : During c d) (idle : Bool) :
    During c (d.dropIdle idle) ∧ (d.dropIdle idle).inTxn = d.inTxn := by
  cases idle
  · exact ⟨h, rfl⟩
  · exact ⟨h.disconnect, rfl⟩

/-- What both clients look at before they send: the socket stays as it is, a loss inside of
a transaction is reported, and outside of one there is another connection. -/
theorem During.checked (h : During c d) (htxn : d.inTxn = c.inTxn) (idle : Bool)
    {next : Client × Outcome}
    (hnext : c.inTxn = false → (d.dropIdle idle).inTxn = false →
      During c next.1 ∧ (next.2 = .ok → next.1.inTxn = c.inTxn)) :
    ∀ r, r = (if (d.dropIdle idle).sock.isSome then (d.dropIdle idle, Outcome.ok)
      else if (d.dropIdle idle).inTxn then ({ d.dropIdle idle with inTxn := false }, .error)
      else next) → During c r.1 ∧ (r.2 = .ok → r.1.inTxn = c.inTxn) := by
  obtain ⟨hidle, hsame⟩ := h.dropIdle idle
  generalize d.dropIdle idle = d' at hidle hsame hnext
  rintro r rfl
  split
  · exact ⟨hidle, fun _ => hsame.trans htxn⟩
  · split
    · exact ⟨hidle.clearTxn, nofun⟩
    · rename_i hfalse
      have hd := Bool.eq_false_iff.mpr hfalse
      exact hnext (htxn.symm.trans (hsame.symm.trans hd)) hd

theorem During.ensureConnected (h : During c d) (htxn : d.inTxn = c.inTxn) (idle : Bool)
    (connect : Connect) :
    During c (d.ensureConnected idle connect).1 ∧
      ((d.ensureConnected idle connect).2 = .ok →
        (d.ensureConnected idle connect).1.inTxn = c.inTxn) := by
  refine h.checked htxn idle ?_ _ rfl
  intro hc hd
  obtain ⟨hconnect, htxn'⟩ := (h.dropIdle idle).1.doConnect hc hd connect
  split
  · rename_i e heq
    rw [heq] at hconnect htxn'
    exact ⟨hconnect, fun _ => htxn'.trans hc.symm⟩
  · rename_i e heq
    rw [heq] at hconnect
    exact ⟨hconnect, nofun⟩

theorem During.readyToSend (h : During c d) (htxn : d.inTxn = c.inTxn) (idle : Bool)
    (connect : Connect) :
    During c (d.readyToSend idle connect).1 ∧
      ((d.readyToSend idle connect).2 = .ok →
        (d.readyToSend idle connect).1.inTxn = c.inTxn) := by
  refine h.checked htxn idle ?_ _ rfl
  intro hc hd
  obtain ⟨hconnect, htxn'⟩ := (h.dropIdle idle).1.doConnect hc hd connect
  dsimp only
  split
  · exact ⟨hconnect, fun _ => htxn'.trans hc.symm⟩
  · exact ⟨hconnect, nofun⟩

theorem During.sideTrip (h : During c d) (t : Trip) : During c (d.sideTrip t).1 := by
  rw [Client.sideTrip]
  split
  · exact h
  · split
    · exact h.disconnect
    · split
      · exact h.disconnect
      · split <;> exact h

theorem sideTrip_inTxn (d : Client) (t : Trip) : (d.sideTrip t).1.inTxn = d.inTxn := by
  rw [Client.sideTrip]
  split
  · rfl
  · split
    · rfl
    · split
      · rfl
      · split <;> rfl

/-- The statement is recorded on the session of the socket. -/
theorem During.record (h : During c d) {session : Nat} (hsock : d.sock = some session)
    (executed : Bool) (ho : executed = false → o ≠ .ok) :
    Ended c (d.record session executed) o := by
  cases executed with
  | false => exact h.ended (ho rfl)
  | true =>
    refine ⟨h.same, h.issued, .inr ⟨session, ?_, fun htxn => h.held htxn session hsock⟩⟩
    rw [Client.record, if_pos rfl, h.log, h.issued]

theorem Ended.disconnect (h : Ended c d o) : Ended c d.disconnect o :=
  ⟨nofun, h.issued, h.log⟩

/-- The session of the socket says whether a transaction is open. -/
theorem Ended.setTxn (h : Ended c d o) {session : Nat} (hsock : d.sock = some session)
    (inTxn : Bool) : Ended c (d.setTxn session inTxn) o := by
  refine ⟨?_, h.issued, h.log⟩
  intro _ k hk
  have hk : k = session := Option.some.inj (hk.symm.trans hsock)
  rw [Client.setTxn]
  dsimp only
  split
  · rename_i htrue
    exact h.same htrue k (hsock.trans (congrArg some hk.symm))
  · exact hk

theorem sock_record (d : Client) (session : Nat) (executed : Bool) :
    (d.record session executed).sock = d.sock := by
  cases executed <;> rfl

/-- The statement is executed on the session of the socket, or not at all. -/
theorem During.trip (h : During c d) (count execAt : Nat) (t : Trip) :
    Ended c (d.trip count execAt t).1 (d.trip count execAt t).2 := by
  rw [Client.trip]
  split
  · exact h.ended nofun
  · rename_i session hsock
    have hsock' := (sock_record d session (t.executes count execAt)).trans hsock
    dsimp only
    split
    · refine (h.record hsock _ ?_).disconnect
      exact fun _ => nofun
    · rename_i hsend
      split
      · refine (h.record hsock _ ?_).disconnect
        exact fun _ => nofun
      · rename_i hread
        have hexecuted : t.executes count execAt = true := by
          rw [Trip.executes, Option.not_isSome_iff_eq_none.mp hsend, Bool.eq_false_iff.mpr hread]
          rfl
        split
        · refine Ended.setTxn (h.record hsock _ ?_) hsock' _
          rw [hexecuted]
          nofun
        · refine Ended.setTxn (h.record hsock _ ?_) hsock' _
          exact fun _ => nofun
        · exact h.record hsock _ fun _ => nofun

/-- A request that could not be sent says nothing about a transaction. -/
theorem inTxn_of_sendError (hsend : (d.trip count execAt t).2 = .sendError) :
    (d.trip count execAt t).1.inTxn = d.inTxn := by
  rw [Client.trip] at hsend ⊢
  split at hsend
  · rfl
  · dsimp only at hsend ⊢
    split at hsend
    · rename_i hfails
      rw [if_pos hfails]
      cases t.executes count execAt <;> rfl
    · split at hsend
      · cases hsend
      · split at hsend <;> cases hsend

/-- A request that could not be sent and that the server has not executed. -/
theorem During.trip_sendError (h : During c d)
    (hsend : (d.trip count execAt t).2 = .sendError)
    (hlate : t.sendFails.isSome = true → t.executes count execAt = false) :
    During c (d.trip count execAt t).1 := by
  rw [Client.trip] at hsend ⊢
  split at hsend
  · exact h
  · dsimp only at hsend ⊢
    split at hsend
    · rename_i hfails
      rw [if_pos hfails, hlate hfails]
      exact h.disconnect
    · split at hsend
      · cases hsend
      · split at hsend <;> cases hsend

/-- A request of one message that could not be sent has not arrived. -/
theorem not_executes_single (h : t.sendFails.isSome = true) : t.executes 1 0 = false := by
  obtain ⟨j, hj⟩ := Option.isSome_iff_exists.mp h
  rw [Trip.executes, hj]
  simp

theorem During.extendedQuery (h : During c d) (lookup : Option Trip) (t : Trip) :
    Ended c (d.extendedQuery lookup t).1 (d.extendedQuery lookup t).2 := by
  cases lookup with
  | none => exact h.trip 5 3 t
  | some l =>
    have hside := h.sideTrip l
    rw [Client.extendedQuery]
    split
    · rename_i e heq
      rw [heq] at hside
      exact hside.trip 5 3 t
    · rename_i hne
      refine hside.ended ?_
      intro hok
      exact hne _ (Prod.ext rfl hok)

theorem extendedQuery_inTxn {lookup : Option Trip}
    (hsend : (d.extendedQuery lookup t).2 = .sendError) :
    (d.extendedQuery lookup t).1.inTxn = d.inTxn := by
  cases lookup with
  | none => exact inTxn_of_sendError hsend
  | some l =>
    have htxn := sideTrip_inTxn d l
    rw [Client.extendedQuery] at hsend ⊢
    split at hsend
    · rename_i e heq
      rw [heq] at htxn
      exact (inTxn_of_sendError hsend).trans htxn
    · exact htxn

theorem During.extendedQuery_sendError (h : During c d) {lookup : Option Trip}
    (hsend : (d.extendedQuery lookup t).2 = .sendError)
    (hlate : t.sendFails.isSome = true → t.executes 5 3 = false) :
    During c (d.extendedQuery lookup t).1 := by
  cases lookup with
  | none => exact h.trip_sendError hsend hlate
  | some l =>
    have hside := h.sideTrip l
    rw [Client.extendedQuery] at hsend ⊢
    split at hsend
    · rename_i e heq
      rw [heq] at hside
      exact hside.trip_sendError hsend hlate
    · exact hside

/-! ## The calls -/

/-- Nothing has happened yet. -/
theorem During.refl (hc : c.inTxn = true → ∀ k, c.sock = some k → k = c.begun) : During c c :=
  ⟨hc, hc, rfl, rfl⟩

/-- Another session for a statement that was not sent outside of a transaction. -/
theorem During.again (h : During c d) (hc : c.inTxn = false) (hd : d.inTxn = false)
    (connect : Connect) {second : Client → Client × Outcome}
    (hsecond : ∀ e, During c e → Ended c (second e).1 (second e).2) :
    Ended c
      (match d.doConnect connect with
        | (e, true) => second e
        | (e, false) => (e, .error)).1
      (match d.doConnect connect with
        | (e, true) => second e
        | (e, false) => (e, .error)).2 := by
  have hconnect := (h.doConnect hc hd connect).1
  split
  · rename_i e heq
    rw [heq] at hconnect
    exact hsecond e hconnect
  · rename_i e heq
    rw [heq] at hconnect
    exact hconnect.ended nofun

/-- Inside a transaction the check before the sending passes with the socket as it is. -/
theorem ensureConnected_inTxn {idle : Bool} {connect : Connect} (hc : c.inTxn = true)
    (hok : (c.ensureConnected idle connect).2 = .ok) :
    (c.ensureConnected idle connect).1 = c ∧ idle = false ∧ c.sock.isSome = true := by
  rw [Client.ensureConnected] at hok ⊢
  cases idle with
  | false =>
    rw [show c.dropIdle false = c from rfl] at hok ⊢
    cases hsock : c.sock with
    | none =>
      rw [hsock, if_neg nofun, if_pos hc] at hok
      cases hok
    | some session => exact ⟨rfl, rfl, rfl⟩
  | true =>
    rw [show c.dropIdle true = c.disconnect from rfl] at hok
    rw [if_neg nofun, if_pos (show c.disconnect.inTxn = true from hc)] at hok
    cases hok

theorem sendFails_of_sendError (hsock : d.sock.isSome = true)
    (hsend : (d.trip count execAt t).2 = .sendError) : t.sendFails.isSome = true := by
  obtain ⟨session, hsession⟩ := Option.isSome_iff_exists.mp hsock
  rw [Client.trip, hsession] at hsend
  dsimp only at hsend
  split at hsend
  · assumption
  · split at hsend
    · cases hsend
    · split at hsend <;> cases hsend

variable {f : Fate}

theorem mysqlQuery_ended (hc : c.inTxn = true → ∀ k, c.sock = some k → k = c.begun)
    (hcareful : c.inTxn = true → c.sock.isSome = true → f.idle = false →
      f.first.sendFails = none) :
    Ended c (c.mysqlQuery f).1 (c.mysqlQuery f).2 := by
  obtain ⟨hensure, htxn⟩ := (During.refl hc).ensureConnected rfl f.idle f.connect
  rw [Client.mysqlQuery]
  split
  · rename_i d heq
    rw [heq] at hensure htxn
    have htxn : d.inTxn = c.inTxn := htxn rfl
    have htrip := hensure.trip 1 0 f.first
    split
    · rename_i e heq'
      -- inside a transaction the sending does not fail
      have hfalse : c.inTxn = false := by
        by_contra htrue
        rw [Bool.not_eq_false] at htrue
        obtain ⟨hsame, hidle, hsock⟩ := ensureConnected_inTxn htrue (congrArg Prod.snd heq)
        obtain rfl : d = c := (congrArg Prod.fst heq).symm.trans hsame
        have hfails := sendFails_of_sendError hsock (congrArg Prod.snd heq')
        rw [hcareful htrue hsock hidle] at hfails
        cases hfails
      have hnot := hensure.trip_sendError (congrArg Prod.snd heq') not_executes_single
      have htxn' := inTxn_of_sendError (congrArg Prod.snd heq')
      rw [heq'] at hnot htxn'
      exact hnot.again hfalse (htxn'.trans (htxn.trans hfalse)) f.again fun e he =>
        he.trip 1 0 f.second
    · exact htrip
  · rename_i hne
    exact hensure.ended fun hok => hne _ (Prod.ext rfl hok)

theorem mysqlExecute_ended (hc : c.inTxn = true → ∀ k, c.sock = some k → k = c.begun) :
    Ended c (c.mysqlExecute f).1 (c.mysqlExecute f).2 := by
  obtain ⟨hensure, htxn⟩ := (During.refl hc).ensureConnected rfl f.idle f.connect
  rw [Client.mysqlExecute]
  split
  · rename_i d heq
    rw [heq] at hensure htxn
    have hprepare := (hensure.ensureConnected (htxn rfl) f.prepareIdle f.prepareConnect).1
    split
    · rename_i d' heq'
      rw [heq'] at hprepare
      have hside := hprepare.sideTrip f.prepare
      split
      · rename_i e heq''
        rw [heq''] at hside
        have htrip := hside.trip 1 0 f.first
        split
        · rename_i e' he'
          rw [he'] at htrip
          dsimp only
          split
          · exact htrip.disconnect
          · exact htrip
        · exact htrip
      · rename_i hne
        exact hside.ended fun hok => hne _ (Prod.ext rfl hok)
    · rename_i hne
      exact hprepare.ended fun hok => hne _ (Prod.ext rfl hok)
  · rename_i hne
    exact hensure.ended fun hok => hne _ (Prod.ext rfl hok)

/-- A request that is sent again only outside of a transaction and only if the server has
not executed it. -/
theorem retrying_ended {first second : Client → Client × Outcome}
    (hc : c.inTxn = true → ∀ k, c.sock = some k → k = c.begun)
    (hfirst : ∀ d, During c d → Ended c (first d).1 (first d).2)
    (hsend : c.inTxn = false → ∀ d, During c d → (first d).2 = .sendError →
      During c (first d).1)
    (htxn : ∀ d, (first d).2 = .sendError → (first d).1.inTxn = d.inTxn)
    (hsecond : ∀ d, During c d → Ended c (second d).1 (second d).2) :
    Ended c (c.retrying f first second).1 (c.retrying f first second).2 := by
  obtain ⟨hready, hkept⟩ := (During.refl hc).readyToSend rfl f.idle f.connect
  rw [Client.retrying]
  split
  · rename_i d heq
    rw [heq] at hready hkept
    have hended := hfirst d hready
    split
    · rename_i e heq'
      have hsame := htxn d (congrArg Prod.snd heq')
      rw [heq'] at hended hsame
      have hinTxn : e.inTxn = c.inTxn := hsame.trans (hkept rfl)
      split
      · refine ⟨nofun, hended.issued, ?_⟩
        rcases hended.log with ⟨-, hlog⟩ | hlog
        · exact .inl ⟨nofun, hlog⟩
        · exact .inr hlog
      · rename_i hfalse
        have hfalse := Bool.eq_false_iff.mpr hfalse
        have hc' := hinTxn.symm.trans hfalse
        have hnot := hsend hc' d hready (congrArg Prod.snd heq')
        rw [heq'] at hnot
        exact hnot.again hc' hfalse f.again hsecond
    · exact hended
  · rename_i hne
    exact hready.ended fun hok => hne _ (Prod.ext rfl hok)

end Calls

/-! ## Runs -/

/-- A socket that is open inside a transaction leads to the session on which it was begun,
and no statement was executed twice. -/
structure Inv (c : Client) : Prop where
  same : c.inTxn = true → ∀ k, c.sock = some k → k = c.begun
  old : ∀ e ∈ c.log, e.stmt < c.issued
  once : (c.log.map Entry.stmt).Nodup

section Runs

variable {c c' : Client} {a : Call} {driver : Driver}

theorem start_inv (driver : Driver) : Inv (Client.start driver) := ⟨nofun, nofun, List.nodup_nil⟩

theorem call_ended (h : Inv c) (hcareful : careful c a = true) :
    Ended c (c.call a).1 (c.call a).2 := by
  rw [careful] at hcareful
  rw [Client.call]
  split
  · rename_i hdriver hprepared
    rw [hdriver, hprepared] at hcareful
    refine mysqlQuery_ended h.same ?_
    intro htxn hsock hidle
    simpa [htxn, hsock, hidle] using hcareful
  · exact mysqlExecute_ended h.same
  · exact retrying_ended h.same (fun d hd => hd.trip 1 0 _)
      (fun _ d hd hsend => hd.trip_sendError hsend not_executes_single)
      (fun d hsend => inTxn_of_sendError hsend) fun d hd => hd.trip 1 0 _
  · rename_i hdriver hprepared
    rw [hdriver, hprepared] at hcareful
    refine retrying_ended h.same (fun d hd => hd.extendedQuery _ _) ?_
      (fun d hsend => extendedQuery_inTxn hsend) fun d hd => hd.extendedQuery _ _
    intro htxn d hd hsend
    refine hd.extendedQuery_sendError hsend ?_
    intro hfails
    simpa [htxn, hfails] using hcareful

theorem Inv.perform (h : Inv c) (hcareful : careful c a = true) : Inv (c.perform a).1 := by
  obtain ⟨hsame, hissued, hlog⟩ := call_ended h hcareful
  have hold : ∀ e ∈ c.log, e.stmt < c.issued + 1 := fun e he => Nat.lt_succ_of_lt (h.old e he)
  rw [Client.perform]
  rcases hlog with ⟨-, hlog⟩ | ⟨k, hlog, -⟩
  · refine ⟨hsame, ?_, ?_⟩
    · rw [hlog]
      exact hold
    · rw [hlog]
      exact h.once
  · refine ⟨hsame, ?_, ?_⟩
    · rw [hlog]
      refine List.forall_mem_append.mpr ⟨hold, List.forall_mem_singleton.mpr ?_⟩
      exact Nat.lt_succ_self _
    · rw [hlog, List.map_append, List.nodup_append]
      refine ⟨h.once, List.nodup_singleton _, ?_⟩
      intro n hn m hm heq
      obtain ⟨e, he, rfl⟩ := List.mem_map.mp hn
      rw [List.map_singleton, List.mem_singleton] at hm
      exact absurd (h.old e he) (by rw [heq, hm]; exact Nat.lt_irrefl _)

theorem run_inv
    (hrun : RunWhere Step (fun c a => careful c a = true) (Client.start driver) c) : Inv c := by
  refine hrun.keeps ?_ (start_inv driver)
  rintro c a c' rfl hcareful h
  exact h.perform hcareful

/-- In a run in which MySQL does not fail to send a query inside a transaction and
PostgreSQL does not fail to send outside of one after `Execute` has arrived: a statement
that is issued inside a transaction is executed on the session on which it was begun only,
a call that reports no error has executed its statement, and no statement is executed
twice. -/
theorem transaction_kept
    (hrun : RunWhere Step (fun c a => careful c a = true) (Client.start driver) c)
    (hcareful : careful c a = true) :
    (c.inTxn = true → ∀ e ∈ (c.perform a).1.log, e.stmt = c.issued → e.session = c.begun) ∧
    ((c.perform a).2 = .ok → ∃ e ∈ (c.perform a).1.log, e.stmt = c.issued) ∧
    ((c.perform a).1.log.map Entry.stmt).Nodup := by
  have h := run_inv hrun
  have hended := call_ended h hcareful
  refine ⟨?_, ?_, (h.perform hcareful).once⟩
  · intro htxn e he hstmt
    have he : e ∈ (c.call a).1.log := he
    rcases hended.log with ⟨-, hlog⟩ | ⟨k, hlog, hk⟩
    · rw [hlog] at he
      exact absurd (h.old e he) (by rw [hstmt]; exact Nat.lt_irrefl _)
    · rw [hlog] at he
      rcases List.mem_append.mp he with he | he
      · exact absurd (h.old e he) (by rw [hstmt]; exact Nat.lt_irrefl _)
      · obtain rfl := List.mem_singleton.mp he
        exact hk htxn
  · intro hok
    rcases hended.log with ⟨hne, -⟩ | ⟨k, hlog, -⟩
    · exact absurd hok hne
    · refine ⟨⟨c.issued, k⟩, ?_, rfl⟩
      show _ ∈ (c.call a).1.log
      rw [hlog]
      exact List.mem_append_right _ List.mem_cons_self

end Runs

/-- A request that is answered. -/
def answered (inTxn : Bool) : Trip := ⟨none, 5, false, .ok inTxn⟩

/-- A call that meets no loss before its first request; a second one is answered. -/
def fate (first : Trip) : Fate where
  idle := false
  connect := .done true true
  prepareIdle := false
  prepareConnect := .done true true
  prepare := answered false
  closeFails := false
  lookup := none
  first := first
  again := .done true true
  lookupAgain := none
  second := answered false

/-- A client of MySQL after `BEGIN`. -/
def begun : Client := ((Client.start .mysql).perform ⟨false, fate (answered true)⟩).1

/-- A statement in a transaction that loses its connection while it is answered. -/
theorem transaction_kept_lost :
    (∀ e ∈ (begun.perform ⟨false, fate ⟨none, 5, true, .ok true⟩⟩).1.log, e.stmt = 1 →
      e.session = 0) ∧
    ((begun.perform ⟨false, fate ⟨none, 5, true, .ok true⟩⟩).1.log.map Entry.stmt).Nodup := by
  have hrun : RunWhere Step (fun c a => careful c a = true) (Client.start .mysql) begun :=
    RunWhere.refl.snoc (a := ⟨false, fate (answered true)⟩) rfl (by decide)
  have hkept := transaction_kept (a := ⟨false, fate ⟨none, 5, true, .ok true⟩⟩) hrun (by decide)
  exact ⟨hkept.1 (by decide), hkept.2.2⟩

/-- MySQL fails to send a query inside a transaction and executes it on another session.
PostgreSQL fails to send `Sync` after `Execute` has arrived and the statement is executed
again. -/
theorem executed_elsewhere :
    (Run Step (Client.start .mysql) begun ∧ begun.inTxn = true ∧ begun.begun = 0 ∧
      (begun.perform ⟨false, fate ⟨some 0, 0, false, .ok true⟩⟩).2 = .ok ∧
      ⟨1, 1⟩ ∈ (begun.perform ⟨false, fate ⟨some 0, 0, false, .ok true⟩⟩).1.log) ∧
    ∃ c, Run Step (Client.start .postgres) c ∧ ¬ (c.log.map Entry.stmt).Nodup := by
  refine ⟨⟨?_, by decide, by decide, by decide, by decide⟩, ?_⟩
  · exact Run.snoc RunWhere.refl (a := ⟨false, fate (answered true)⟩) rfl
  · exact ⟨_, Run.snoc RunWhere.refl (a := ⟨true, fate ⟨some 4, 4, false, .ok false⟩⟩) rfl,
      by decide⟩

end DbClient

end Look
