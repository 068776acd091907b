/-
The connections of the SMTP server: `SmtpServer::Impl` on top of `EpollEventLoop`.

Everything happens on the thread of the loop.  The loop has an entry for each descriptor that
it watches, and closes descriptors on its own when a client is silent for too long, hangs up or
cannot be read.  The server has a session for each descriptor in `sessions`, and counts the
connections twice: all of them in `conn_count`, and those of an address in `g_ip_conns`.
What the sessions do with the bytes is `Look.Net.Smtp`; here every callback runs to its end.

An event may come at any time for a descriptor with an entry: `epoll_wait` returns events in
batches, and an event of the batch can be from a connection before, whose descriptor was
closed and accepted again.
-/
import Look.Lib.AssocList
import Look.Lib.Reach
import Look.Lib.SortedMap
import Look.Net.Smtp
import Mathlib.Algebra.Order.Group.Int
import Mathlib.Data.Int.Init
import Mathlib.Logic.Function.Basic

namespace Look

namespace Smtp

open Http (Bytes)

/-! ## The loop of a session -/

/-- `pump`, at most this many turns of its loop. -/
def pumpTurns (cfg : Config) : Nat → Session → Session
  | 0, s => s
  | n + 1, s => if s.pumping then pumpTurns cfg n (pumpTurn cfg s) else s

/-- `pump`.  Every turn but the last takes a line from the buffer. -/
def pump (cfg : Config) (s : Session) : Session := pumpTurns cfg (s.buf.length + 1) s

/-! ## The data of the server -/

/-- `smtp_max_conn`, `smtp_max_conns_per_ip` and `smtp_idle_timeout`. -/
structure Limits where
  maxConn : Int
  maxConnsPerIp : Int
  idleTimeout : Int
  maxConnsPerIp_pos : 0 < maxConnsPerIp
  maxConn_lt : maxConn < 2 ^ 31

/-- The limits when the environment sets none. -/
def Limits.default : Limits := ⟨1000, 10, 300, by decide, by decide⟩

/-- `FdEntry`, with the sessions that its callbacks have captured. -/
structure Entry where
  readCb : Option Nat
  writeCb : Option (Nat × Next)
  /-- `idle_timeout_sec` is above 0. -/
  watched : Bool
deriving DecidableEq

/-- A session that was made, and the descriptor that its callbacks have captured. -/
structure Conn where
  fd : Nat
  session : Session
deriving DecidableEq

structure Server where
  /-- The entries of the loop. -/
  fds : Nat → Option Entry
  /-- The descriptors that are open. -/
  isOpen : Nat → Bool
  /-- The sessions that were made. -/
  conns : List Conn
  sessions : List (Nat × Nat)
  connCount : Int
  ipConns : Bytes → Option Int

namespace Server

def start : Server := ⟨fun _ => none, fun _ => false, [], [], 0, fun _ => none⟩

/-- The address of a session. -/
def address (s : Server) (i : Nat) : Bytes := ((s.conns[i]?).map (·.session.msg.remoteIp)).getD []

def setEntry (s : Server) (fd : Nat) (e : Option Entry) : Server :=
  { s with fds := Function.update s.fds fd e }

def setConn (s : Server) (i : Nat) (c : Conn) : Server := { s with conns := s.conns.set i c }

def modifySession (s : Server) (i : Nat) (f : Session → Session) : Server :=
  match s.conns[i]? with
  | none => s
  | some c => s.setConn i { c with session := f c.session }

/-! ## Counting -/

/-- `std::atomic<int>` wraps around. -/
def wrap (n : Int) : Int := n.bmod Int32.size

/-- `ip_acquire`: nothing when the address has too many connections. -/
def ipAcquire (lim : Limits) (s : Server) (ip : Bytes) : Option Server :=
  let n := (s.ipConns ip).getD 0
  if lim.maxConnsPerIp ≤ n then none
  else some { s with ipConns := Function.update s.ipConns ip (some (n + 1)) }

/-- `ip_release`. -/
def ipRelease (s : Server) (ip : Bytes) : Server :=
  match s.ipConns ip with
  | none => s
  | some n =>
    { s with ipConns := Function.update s.ipConns ip (if n - 1 ≤ 0 then none else some (n - 1)) }

/-! ## Closing -/

/-- `EpollEventLoop::close_fd`. -/
def closeFd (s : Server) (fd : Nat) : Server :=
  match s.fds fd with
  | none => s
  | some _ => { s.setEntry fd none with isOpen := Function.update s.isOpen fd false }

/-- `EpollEventLoop::set_idle_timeout`. -/
def setIdleTimeout (s : Server) (fd : Nat) (seconds : Int) : Server :=
  match s.fds fd with
  | none => s
  | some e => s.setEntry fd (some { e with watched := decide (0 < seconds) })

/-- The part of `close_session` that is for the session of the descriptor. -/
def forget (s : Server) (fd : Nat) : Server :=
  match AssocList.lookup fd s.sessions with
  | none => s
  | some i =>
    let s := (s.modifySession i Smtp.closeSession).ipRelease (s.address i)
    { s with sessions := SortedMap.erase fd s.sessions }

/-- `close_session`. -/
def closeSession (s : Server) (fd : Nat) : Server :=
  let s := (s.forget fd).closeFd fd
  { s with connCount := wrap (s.connCount - 1) }

/-! ## Callbacks -/

/-- `EpollEventLoop::async_read` with `on_data`. -/
def asyncRead (s : Server) (fd i : Nat) : Server :=
  match s.fds fd with
  | none => s
  | some e => s.setEntry fd (some { e with readCb := some i })

/-- `EpollEventLoop::async_write`.  Without an entry the callback is told so at once. -/
def asyncWrite (s : Server) (fd i : Nat) (next : Next) : Server :=
  match s.fds fd with
  | some e => s.setEntry fd (some { e with writeCb := some (i, next) })
  | none =>
    match next with
    | .delivered => s.modifySession i resetEnvelope
    | _ => s.closeSession fd

/-- What a callback asks for at its end: to close, to write a reply, or to read more.  A
session that waits for a worker asks for nothing. -/
def settle (s : Server) (fd i : Nat) (session : Session) : Server :=
  if session.closed then s.closeSession fd
  else
    match session.writing with
    | some (_, next) => s.asyncWrite fd i next
    | none => if session.waiting then s else s.asyncRead fd i

/-- A callback of a session.  `writing`, `closed` and `pumping` are reset before it, so that
they say afterwards what it asks for; what is being written is in the entry. -/
def call (cfg : Config) (s : Server) (fd i : Nat) (f : Session → Session) : Server :=
  match s.conns[i]? with
  | none => s
  | some c =>
    let session := pump cfg
      (f { c.session with writing := none, closed := false, pumping := false })
    (s.setConn i { c with session := { session with closed := c.session.closed } }).settle fd i
      session

/-- The read callback, when there is one.  No bytes say that the connection is over. -/
def notify (cfg : Config) (s : Server) (fd : Nat) (readCb : Option Nat) (bytes : Bytes) : Server :=
  match readCb with
  | none => s
  | some i => s.call cfg fd i fun session => onData cfg session bytes

/-- The session is closed. -/
def isClosed (s : Server) (i : Nat) : Bool := ((s.conns[i]?).map (·.session.closed)).getD false

/-- The callback of a reply that has been written.  `resume` does nothing for a session that is
closed. -/
def written (cfg : Config) (s : Server) (fd i : Nat) : Next → Server
  | .close => s.closeSession fd
  | .greeted => s.call cfg fd i fun session => afterWrite session .greeted
  | next => if s.isClosed i then s else s.call cfg fd i fun session => afterWrite session next

/-! ## The steps of the loop -/

/-- What a call of `read` returns: bytes, the end, or an error that is not EAGAIN. -/
inductive Read where
  | data (first : UInt8) (rest : Bytes)
  | fin
  | error
deriving DecidableEq

/-- The part of `run` that handles EPOLLIN, with what the calls of `read` return.  When there
are no more of them the next one returns EAGAIN. -/
def readLoop (cfg : Config) (fd : Nat) (readCb : Option Nat) (s : Server) : List Read → Server
  | [] => s
  | .data first rest :: reads =>
    let s := s.notify cfg fd readCb (first :: rest)
    if (s.fds fd).isNone then s else readLoop cfg fd readCb s reads
  | .fin :: _ => (s.notify cfg fd readCb []).closeFd fd
  | .error :: _ => (s.notify cfg fd readCb []).closeFd fd

/-- `on_accept`.  A connection too many is closed at once, and the loop keeps its entry. -/
def onAccept (cfg : Config) (lim : Limits) (s : Server) (fd : Nat) (ip : Bytes)
    (submission : Bool) : Server :=
  match s.ipAcquire lim ip with
  | none => { s with isOpen := Function.update s.isOpen fd false }
  | some s =>
    if lim.maxConn ≤ s.connCount then
      let s := s.ipRelease ip
      { s with isOpen := Function.update s.isOpen fd false }
    else
      let i := s.conns.length
      let s := { s with
        connCount := wrap (s.connCount + 1)
        conns := s.conns.concat ⟨fd, Session.start cfg submission ip⟩
        sessions := SortedMap.put fd i s.sessions }
      let s := if 0 < lim.idleTimeout then s.setIdleTimeout fd lim.idleTimeout else s
      s.asyncWrite fd i .greeted

inductive Action where
  | accept (fd : Nat) (ip : Bytes) (submission : Bool)
  /-- EPOLLIN. -/
  | readable (fd : Nat) (reads : List Read)
  /-- EPOLLOUT, and the rest of the reply could be written. -/
  | writable (fd : Nat)
  /-- The idle sweep has found the descriptor. -/
  | expire (fd : Nat)
  /-- A worker is done with the message of a session. -/
  | workerDone (i : Nat) (accepted : Bool)
deriving DecidableEq

/-- One step of the loop.  Nothing when it cannot happen. -/
def step (cfg : Config) (lim : Limits) (s : Server) : Action → Option Server
  | .accept fd ip submission =>
    if s.isOpen fd then none
    else
      let s := { s with isOpen := Function.update s.isOpen fd true }
      some ((s.setEntry fd (some ⟨none, none, false⟩)).onAccept cfg lim fd ip submission)
  | .readable fd reads => (s.fds fd).map fun e => readLoop cfg fd e.readCb s reads
  | .writable fd =>
    match s.fds fd with
    | some e =>
      e.writeCb.map fun (i, next) =>
        (s.setEntry fd (some { e with writeCb := none })).written cfg fd i next
    | none => none
  | .expire fd =>
    match s.fds fd with
    | some e => if e.watched then some ((s.notify cfg fd e.readCb []).closeFd fd) else none
    | none => none
  | .workerDone i _ =>
    match s.conns[i]? with
    | some c =>
      if c.session.working.isSome then
        let s := s.modifySession i fun session => { session with working := none }
        some (if c.session.closed then s else s.asyncWrite c.fd i .delivered)
      else none
    | none => none

def Step (cfg : Config) (lim : Limits) (s : Server) (a : Action) (s' : Server) : Prop :=
  step cfg lim s a = some s'

/-! ## What the counters should say -/

/-- The sessions of an address. -/
def sessionsOf (s : Server) (ip : Bytes) : List (Nat × Nat) :=
  s.sessions.filter fun p => s.address p.2 == ip

/-- The counters are right and never below zero, and a session is there only as long as its
descriptor is open and in the loop. -/
structure Accounted (s : Server) : Prop where
  conns : s.connCount = s.sessions.length
  ips : ∀ ip, (s.ipConns ip).getD 0 = (s.sessionsOf ip).length
  ips_pos : ∀ ip n, s.ipConns ip = some n → 0 < n
  left : ∀ fd i, (fd, i) ∈ s.sessions → s.isOpen fd = true ∧ (s.fds fd).isSome = true

/-- The descriptor has no session, or its session has a read callback: the banner has been
written. -/
def greeted (s : Server) (fd : Nat) : Bool :=
  (AssocList.lookup fd s.sessions).isNone || ((s.fds fd).bind Entry.readCb).isSome

/-- The loop does not close the descriptor of a session before the banner has been written. -/
def careful (s : Server) : Action → Bool
  | .readable fd reads =>
    s.greeted fd || reads.all fun r => match r with | .data _ _ => true | _ => false
  | .expire fd => s.greeted fd
  | _ => true

def Careful (s : Server) (a : Action) : Prop := careful s a = true

end Server

end Smtp

end Look
