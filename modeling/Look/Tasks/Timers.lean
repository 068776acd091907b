/-
Timers: `TimerManager::after`, `every`, `cancel` and the loop of its thread.

The calls come from any number of threads and from the callbacks, which run on the thread of
the manager.  A step is one critical section, one access to an atomic, or the start or the end
of a callback.  The callbacks that are due are copied while the mutex is held and run after it
is released, and the interval of a timer says whether it is a periodic one.

The mutex may be free or not between the deadline and the wait, and between the end of the
wait and the copying it is held: a step for each is enough, since the later clock lets the
wait end as well.
-/
import Look.Lib.Reach
import Look.Lib.SortedMap
import Mathlib.Algebra.Group.Int.Defs
import Mathlib.Algebra.Group.Nat.Defs
import Mathlib.Algebra.Order.Group.Int
import Mathlib.Logic.Function.Basic

namespace Look

namespace Timers

/-- `Entry`.  The callback of a timer is known by the id of the timer, and a time is a number
of nanoseconds of `steady_clock`. -/
structure Entry where
  nextFire : Int
  intervalMs : Int
  cancelled : Bool
deriving DecidableEq

def milliseconds (ms : Int) : Int := ms * 1000000

def seconds (s : Int) : Int := milliseconds (s * 1000)

/-- Which call has made a timer. -/
inductive Kind where
  | after
  | every
deriving DecidableEq

def Kind.intervalMs (ms : Int) : Kind → Int
  | .after => 0
  | .every => ms

def Kind.entry (kind : Kind) (ms now : Int) : Entry where
  nextFire := now + milliseconds ms
  intervalMs := kind.intervalMs ms
  cancelled := false

/-- A callback that was copied, with the time at which it was due. -/
structure Callback where
  id : Int
  due : Int
deriving DecidableEq

/-- Where the thread of the manager is. -/
inductive Loop where
  /-- It is about to run these callbacks, and at the top of its loop when there are none. -/
  | round (cbs : List Callback)
  | waiting (deadline : Int)
  /-- A callback runs. -/
  | inside (id : Int) (cbs : List Callback)
  | stopped
deriving DecidableEq

/-- Where a caller is. -/
inductive Call where
  | idle
  /-- It has its id. -/
  | drawn (id : Int) (kind : Kind) (ms : Int)
  /-- It has read the clock. -/
  | timed (id : Int) (kind : Kind) (ms now : Int)
  | armed (id : Int)
  | erased (id : Int)
deriving DecidableEq

/-- What has happened to the timers. -/
inductive Event where
  /-- A timer is in `entries_`, and the clock showed `now` when it was made. -/
  | armed (id : Int) (kind : Kind) (ms now : Int)
  | started (id due now : Int)
  | erased (id : Int)
  | cancelReturned (id : Int)
deriving DecidableEq

namespace Event

def arms (id : Int) : Event → Bool
  | .armed id' _ _ _ => id' == id
  | _ => false

def starts (id : Int) : Event → Bool
  | .started id' _ _ => id' == id
  | _ => false

end Event

/-- The callers are the threads `some t` and the callback that runs, `none`. -/
structure State (T : Type) where
  clock : Int
  nextId : Int
  entries : List (Int × Entry)
  dirty : Bool
  running : Bool
  loop : Loop
  calls : Option T → Call
  /-- The ids that were given out. -/
  ids : List Int
  /-- The last event comes first. -/
  history : List Event

namespace State

variable {T : Type} (s : State T)

def start (clock : Int) : State T where
  clock := clock
  nextId := 1
  entries := []
  dirty := false
  running := true
  loop := .round []
  calls _ := .idle
  ids := []
  history := []

/-- The copies that have not run. -/
def cbs : List Callback :=
  match s.loop with
  | .round cbs | .inside _ cbs => cbs
  | .waiting _ | .stopped => []

/-- A thread can call at any time, and a callback when it runs. -/
def mayCall : Option T → Bool
  | some _ => true
  | none => match s.loop with
    | .inside _ _ => true
    | _ => false

/-- When the thread wakes up at the latest. -/
def deadline : Int :=
  s.entries.foldl
    (fun deadline p => if !p.2.cancelled && p.2.nextFire < deadline then p.2.nextFire else deadline)
    (s.clock + seconds 30)

/-- The predicate of `wait_until`. -/
def wakes : Bool :=
  !s.running || s.dirty || s.entries.any fun p => !p.2.cancelled && p.2.nextFire ≤ s.clock

end State

/-- The callbacks that are due. -/
def dueNow (now : Int) (entries : List (Int × Entry)) : List Callback :=
  entries.filterMap fun p =>
    if !p.2.cancelled && p.2.nextFire ≤ now then some ⟨p.1, p.2.nextFire⟩ else none

/-- What a round makes of an entry. -/
def rearm (now : Int) (p : Int × Entry) : Option (Int × Entry) :=
  if p.2.cancelled then none
  else if p.2.nextFire ≤ now then
    if 0 < p.2.intervalMs then
      some (p.1, { p.2 with nextFire := now + milliseconds p.2.intervalMs })
    else none
  else some p

inductive Action (T : Type) where
  /-- Time passes. -/
  | tick (now : Int)
  /-- `next_id_.fetch_add(1)` of `after` or `every`. -/
  | call (c : Option T) (kind : Kind) (ms : Int)
  | readClock (c : Option T)
  /-- The critical section of `after` or `every`. -/
  | insert (c : Option T)
  /-- The critical section of `cancel`. -/
  | cancel (c : Option T) (id : Int)
  | notifyAndReturn (c : Option T)
  | shutdown
  /-- The deadline is computed and the thread waits. -/
  | sleep
  /-- The wait is over: what is due is copied. -/
  | wake
  /-- The next callback starts. -/
  | start
  | finish

variable {T : Type}

section Step

variable [DecidableEq T]

namespace State

variable (s : State T)

def setCall (c : Option T) (call : Call) : State T :=
  { s with calls := Function.update s.calls c call }

def record (e : Event) : State T := { s with history := e :: s.history }

/-- `entries_[id] = e`. -/
def arm (c : Option T) (id : Int) (kind : Kind) (ms now : Int) : State T :=
  { s with
    entries := SortedMap.put id (kind.entry ms now) s.entries
    dirty := true
    calls := Function.update s.calls c (.armed id)
    history := .armed id kind ms now :: s.history }

/-- `entries_.erase(id)`. -/
def erase (c : Option T) (id : Int) : State T :=
  { s with
    entries := SortedMap.erase id s.entries
    dirty := true
    calls := Function.update s.calls c (.erased id)
    history := .erased id :: s.history }

def collect : State T :=
  { s with
    entries := s.entries.filterMap (rearm s.clock)
    loop := .round (dueNow s.clock s.entries) }

end State

/-- One step; nothing when it cannot happen. -/
def step (s : State T) : Action T → Option (State T)
  | .tick now => if s.clock ≤ now then some { s with clock := now } else none
  | .call c kind ms =>
    if s.mayCall c = true ∧ s.calls c = .idle then
      some { s.setCall c (.drawn s.nextId kind ms) with
        nextId := (s.nextId + 1).bmod (2 ^ 32)
        ids := s.nextId :: s.ids }
    else none
  | .readClock c =>
    match s.calls c with
    | .drawn id kind ms => some (s.setCall c (.timed id kind ms s.clock))
    | _ => none
  | .insert c =>
    match s.calls c with
    | .timed id kind ms now => some (s.arm c id kind ms now)
    | _ => none
  | .cancel c id =>
    if s.mayCall c = true ∧ s.calls c = .idle then some (s.erase c id) else none
  | .notifyAndReturn c =>
    match s.calls c with
    | .armed _ => some (s.setCall c .idle)
    | .erased id => some ((s.setCall c .idle).record (.cancelReturned id))
    | _ => none
  | .shutdown => some { s with running := false }
  | .sleep =>
    match s.loop with
    | .round [] =>
      if s.running then some { s with dirty := false, loop := .waiting s.deadline }
      else some { s with loop := .stopped }
    | _ => none
  | .wake =>
    match s.loop with
    | .waiting deadline =>
      if s.wakes = true ∨ deadline ≤ s.clock then
        if s.running then some s.collect else some { s with loop := .stopped }
      else none
    | _ => none
  | .start =>
    match s.loop with
    | .round (cb :: cbs) =>
      some ({ s with loop := .inside cb.id cbs }.record (.started cb.id cb.due s.clock))
    | _ => none
  | .finish =>
    match s.loop with
    | .inside _ cbs => if s.calls none = .idle then some { s with loop := .round cbs } else none
    | _ => none

def Step (s : State T) (a : Action T) (s' : State T) : Prop :=
  step s a = some s'

end Step

/-! ## What timers are for -/

/-- No callback starts before it is due, a one-shot timer starts once, a periodic timer stays
until it is cancelled, and what is cancelled does not start. -/
structure Lawful (s : State T) : Prop where
  notEarly : ∀ {id due now}, .started id due now ∈ s.history → due ≤ now ∧
    ∀ {kind ms made}, .armed id kind ms made ∈ s.history → made + milliseconds ms ≤ now
  once : ∀ {id ms made}, .armed id .after ms made ∈ s.history →
    s.history.countP (Event.starts id) ≤ 1
  stays : ∀ {id ms made}, .armed id .every ms made ∈ s.history → .erased id ∉ s.history →
    ∃ e, (id, e) ∈ s.entries
  silent : ∀ {id newer older}, s.history = newer ++ .cancelReturned id :: older →
    ∀ {due now}, .started id due now ∉ newer

/-- An id is given out once, a periodic timer has a positive interval, and a timer is cancelled
when it is in `entries_` or was there, and no copy of its callback waits to run. -/
def careful (s : State T) : Action T → Bool
  | .call _ kind ms => !s.ids.contains s.nextId && (kind != .every || decide (0 < ms))
  | .cancel _ id =>
    s.history.any (Event.arms id) && s.cbs.all fun cb => cb.id != id
  | _ => true

end Timers

end Look
