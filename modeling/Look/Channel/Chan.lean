/-
`LookChannel` under any interleaving of its users.

The mutex of a channel makes the code between two waits one step.  A party that
waits holds no lock: it is in a `Place`, and it goes on when the condition
variable it waits on was notified (or its timer fires) and the predicate of its
wait holds.  Both engines call `send_val` and `recv_val`; they close a channel in
two different ways.

Each call of `send_val` has a number, which its value carries through the queue,
and `log` is what happened so far.  No step reads either of them.
-/
import Mathlib.Logic.Function.Basic
import Look.Lib.Reach

namespace Look

structure LookChannel (α : Type) where
  queue : List α
  capacity : Nat
  closed : Bool
  unbuffered : Bool
  /- One more with every value taken out; a `uint64_t`. -/
  recvGen : BitVec 64

namespace LookChannel

variable {α : Type}

/-- The constructor. -/
def make (cap : Nat) : LookChannel α where
  queue := []
  capacity := if cap = 0 then 1 else cap
  closed := false
  unbuffered := cap == 0
  recvGen := 0

/-- The predicate of a sender that waits for room. -/
def hasRoom (c : LookChannel α) : Bool :=
  c.closed || decide (c.queue.length < c.capacity)

/-- The predicate of a sender that waits until its value is received. -/
def taken (c : LookChannel α) (gen : BitVec 64) : Bool :=
  c.closed || decide (c.recvGen > gen)

/-- The predicate of a receiver. -/
def hasItem (c : LookChannel α) : Bool :=
  c.closed || !c.queue.isEmpty

end LookChannel

namespace Chan

/-- Where a party stands: in no call on the channel, or in one of the three
waits. -/
inductive Place (V : Type) where
  | away
  | room (send : Nat) (v : V)
  | rendezvous (send : Nat) (gen : BitVec 64)
  | item

namespace Place

variable {V α : Type}

/-- The party waits on `not_full`. -/
def onNotFull : Place V → Bool
  | room _ _ => true
  | rendezvous _ _ => true
  | _ => false

/-- The party waits on `not_empty`. -/
def onNotEmpty : Place V → Bool
  | item => true
  | _ => false

/-- The predicate of the wait. -/
def wakes (c : LookChannel α) : Place V → Bool
  | away => false
  | room _ _ => c.hasRoom
  | rendezvous _ gen => c.taken gen
  | item => c.hasItem

end Place

inductive Event (P V : Type) where
  /- The value of a send was put into the queue. -/
  | accepted (send : Nat) (v : V)
  /- `send_val` returned, or threw. -/
  | returned (send : Nat)
  | failed (send : Nat) (error : String)
  /- `recv_val` returned a value, returned null, or threw. -/
  | received (p : P) (send : Nat) (v : V)
  | drained (p : P)
  | recvFailed (p : P) (error : String)

/-- A channel and the parties that use it. -/
structure Sys (P V : Type) where
  chan : LookChannel (Nat × V)
  place : P → Place V
  /- The condition variable of the party was notified since it began to wait. -/
  notified : P → Bool
  sends : Nat
  log : List (Event P V)

namespace Sys

variable {P V : Type}

/-- A new channel that nobody uses yet. -/
def start (cap : Nat) : Sys P V where
  chan := .make cap
  place := fun _ => .away
  notified := fun _ => false
  sends := 0
  log := []

/-- `notify_all` on the condition variable that the parties of `on` wait on. -/
def notifyAll (s : Sys P V) (on : Place V → Bool) : Sys P V :=
  { s with notified := fun q => s.notified q || on (s.place q) }

variable [DecidableEq P]

/-- `notify_one`: some party that waits, if one does. -/
inductive NotifyOne (s : Sys P V) (on : Place V → Bool) : Sys P V → Prop
  | nobody (h : ∀ q, on (s.place q) = true → s.notified q = true) : NotifyOne s on s
  | somebody (q : P) (hon : on (s.place q) = true) (hq : s.notified q = false) :
      NotifyOne s on { s with notified := Function.update s.notified q true }

/-- The party begins to wait. -/
def sleep (s : Sys P V) (p : P) (w : Place V) : Sys P V :=
  { s with
    place := Function.update s.place p w
    notified := Function.update s.notified p false }

/-- The call of the party ends. -/
def leave (s : Sys P V) (p : P) (e : Event P V) : Sys P V :=
  { s with place := Function.update s.place p .away, log := s.log ++ [e] }

/-- `queue.push(val.deep_clone())`. -/
def push (clone : V → V) (s : Sys P V) (send : Nat) (v : V) : Sys P V :=
  { s with
    chan := { s.chan with queue := s.chan.queue ++ [(send, clone v)] }
    log := s.log ++ [.accepted send v] }

/-- `queue.pop(); ++recv_gen`. -/
def pop (s : Sys P V) (rest : List (Nat × V)) : Sys P V :=
  { s with chan := { s.chan with queue := rest, recvGen := s.chan.recvGen + 1 } }

/-- What the party does, with the lock held, once the predicate of its wait
holds: up to the end of its call or to its next wait. -/
inductive Proceed (clone : V → V) (s : Sys P V) (p : P) : Sys P V → Prop
  | sendClosed {send v} (hp : s.place p = .room send v) (hc : s.chan.closed = true) :
      Proceed clone s p (s.leave p (.failed send "send on closed channel"))
  | sendBuffered {send v s'} (hp : s.place p = .room send v) (hc : s.chan.closed = false)
      (hu : s.chan.unbuffered = false)
      (hn : NotifyOne (s.push clone send v) Place.onNotEmpty s') :
      Proceed clone s p (s'.leave p (.returned send))
  /- `taken` is false here: `gen` was read under the same lock. -/
  | sendUnbuffered {send v s'} (hp : s.place p = .room send v) (hc : s.chan.closed = false)
      (hu : s.chan.unbuffered = true)
      (hn : NotifyOne (s.push clone send v) Place.onNotEmpty s') :
      Proceed clone s p (s'.sleep p (.rendezvous send s'.chan.recvGen))
  | sendTaken {send gen} (hp : s.place p = .rendezvous send gen) :
      Proceed clone s p (s.leave p (.returned send))
  | recvDrained (hp : s.place p = .item) (hq : s.chan.queue = []) :
      Proceed clone s p (s.leave p (.drained p))
  | recvItem {send v rest} (hp : s.place p = .item) (hq : s.chan.queue = (send, v) :: rest) :
      Proceed clone s p (((s.pop rest).notifyAll Place.onNotFull).leave p (.received p send v))

/-- The party has the lock and evaluates the predicate of its wait. -/
inductive Check (clone : V → V) (s : Sys P V) (p : P) : Sys P V → Prop
  | proceed {s'} (hw : (s.place p).wakes s.chan = true) (h : Proceed clone s p s') :
      Check clone s p s'
  | wait (hw : (s.place p).wakes s.chan = false) : Check clone s p (s.sleep p (s.place p))

/-- The party calls `send_val`. -/
def enterSend (s : Sys P V) (p : P) (v : V) : Sys P V :=
  { s with place := Function.update s.place p (.room s.sends v), sends := s.sends + 1 }

/-- The party calls `recv_val`. -/
def enterRecv (s : Sys P V) (p : P) : Sys P V :=
  { s with place := Function.update s.place p .item }

/-- What a timer that fires before the predicate holds makes of the call. -/
def timeoutEvent (p : P) : Place V → Event P V
  | .room send _ =>
    .failed send "channel send timeout (possible deadlock; LOOK_CHANNEL_TIMEOUT_MS)"
  | .rendezvous send _ =>
    .failed send "channel send (rendezvous) timeout (possible deadlock; LOOK_CHANNEL_TIMEOUT_MS)"
  | _ => .recvFailed p "channel receive timeout (possible deadlock; LOOK_CHANNEL_TIMEOUT_MS)"

def setClosed (s : Sys P V) : Sys P V :=
  { s with chan := { s.chan with closed := true } }

/-- `close_chan`, which the interpreter calls. -/
def closeChan (s : Sys P V) : Sys P V :=
  (s.setClosed.notifyAll Place.onNotEmpty).notifyAll Place.onNotFull

/-- `CHAN_CLOSE` of the VM. -/
def chanClose (s : Sys P V) : Sys P V :=
  s.setClosed.notifyAll Place.onNotEmpty

end Sys

inductive Label (P V : Type) where
  | send (p : P) (v : V)
  | recv (p : P)
  | wake (p : P)
  | timeout (p : P)
  | closeChan
  | chanClose

/-- One step of the system.  `timed` says whether `LOOK_CHANNEL_TIMEOUT_MS` is
set: without it no timer fires. -/
inductive Sys.Step {P V : Type} [DecidableEq P] (timed : Bool) (clone : V → V) :
    Sys P V → Label P V → Sys P V → Prop
  | send {s s' p v} (hp : s.place p = .away) (h : Check clone (s.enterSend p v) p s') :
      Step timed clone s (.send p v) s'
  | recv {s s' p} (hp : s.place p = .away) (h : Check clone (s.enterRecv p) p s') :
      Step timed clone s (.recv p) s'
  | wake {s s' p} (hp : s.place p ≠ .away) (hn : s.notified p = true)
      (h : Check clone s p s') : Step timed clone s (.wake p) s'
  /- `wait_for` evaluates the predicate once more when the time is over. -/
  | timeoutProceeds {s s' p} (ht : timed = true) (hw : (s.place p).wakes s.chan = true)
      (h : Proceed clone s p s') : Step timed clone s (.timeout p) s'
  | timeoutFails {s p} (ht : timed = true) (hp : s.place p ≠ .away)
      (hw : (s.place p).wakes s.chan = false) :
      Step timed clone s (.timeout p) (s.leave p (timeoutEvent p (s.place p)))
  | closeChan {s} : Step timed clone s .closeChan s.closeChan
  | chanClose {s} : Step timed clone s .chanClose s.chanClose

open Sys in
/-- On an unbuffered channel party 0 has sent 7 and waits for the receipt. -/
theorem run_send (timed : Bool) (ok : Sys (Fin 2) Nat → Label (Fin 2) Nat → Prop)
    (hok : ok (Sys.start 0) (.send 0 7)) :
    RunWhere (Step timed id) ok (Sys.start 0)
      ((((Sys.start 0).enterSend 0 7).push id 0 7).sleep 0 (.rendezvous 0 0)) := by
  refine RunWhere.refl.snoc (.send rfl (.proceed rfl (.sendUnbuffered rfl rfl rfl ?_))) hok
  refine .nobody ?_
  intro q hq
  by_cases hq0 : q = 0
  · subst hq0
    cases hq
  · simp [Sys.enterSend, Sys.push, Sys.start, Function.update_of_ne hq0, Place.onNotEmpty] at hq

end Chan

end Look
