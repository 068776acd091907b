/-
The fiber scheduler: `FiberScheduler` of fiber_posix.cpp with the fibers of one thread.

The thread of the scheduler runs a fiber until it switches back, decides under the lock where the
fiber goes, and looks at epoll and at the deadlines in between.  A fiber suspends itself in two
parts: under the lock it puts itself into `waiting_` and says SUSPENDING, and then it switches to
the thread.  The answer to a suspension is a call of `resume_fiber`.  It can come from any thread,
between the two parts as well as before the first: a fiber that gives a job to a pool suspends
itself only after that.

A step is a section under the mutex, or what a thread does between two of them.  The eventfd only
ends `epoll_wait` early, so it is left out; `epoll_wait` may return at any time, with any of the
descriptors that are watched.  `epoll_create1` has succeeded.
-/
import Look.Lib.Reach
import Look.Lib.SortedMap
import Mathlib.Logic.Function.Basic

namespace Look

namespace Fibers

inductive SchedState where
  | READY
  | RUNNING
  | SUSPENDING
  | WAITING
  | DONE
deriving DecidableEq

/-- Where the code of a fiber is. -/
inductive Code where
  /-- Outside the scheduler. -/
  | free
  /-- It has given a job away, in `fiber_offload_run` or in the wait for a pool, and
  `suspend_current` is next. -/
  | posted
  /-- In `suspend_current`, with `Fiber::yield` next. -/
  | suspending
  /-- In `suspend_current`, behind `Fiber::yield`. -/
  | suspended
  /-- In `wait_readable_tmo`, with `epoll_ctl` and `Fiber::yield` next. -/
  | arming (fd key : Int)
  /-- In `wait_readable_tmo`, behind `Fiber::yield`. -/
  | waits (key : Int)
deriving DecidableEq

/-- Who has the answer to the suspension of a fiber. -/
inductive Answer where
  /-- There is no suspension. -/
  | nothing
  /-- A thread, which will call `resume_fiber`. -/
  | owed
  /-- `pool_waiters_`. -/
  | pool
  /-- `fd_to_fiber_`. -/
  | fd (key : Int)
  /-- The scheduler, which has found the fiber behind an event. -/
  | found
  /-- The scheduler, which has found that the deadline is over. -/
  | expired (key : Int)
  /-- `resume_fiber` was called. -/
  | given
deriving DecidableEq

/-- A fiber.  The last four fields are not part of the source: who has the answer to its
suspension, and for `wait_readable_tmo` its own deadline, if an event for its descriptor was
delivered, and if its own deadline was over. -/
structure Fiber where
  spawned : Bool
  schedState : SchedState
  pendingResume : Bool
  ioTimedOut : Bool
  done : Bool
  code : Code
  /-- The job that it has given away is not done. -/
  jobOpen : Bool
  answer : Answer
  deadline : Option Nat
  delivered : Bool
  expired : Bool
deriving DecidableEq

/-- A fiber that does not exist yet. -/
def Fiber.fresh : Fiber :=
  ⟨false, .READY, false, false, false, .free, false, .nothing, none, false, false⟩

/-- What the thread of the scheduler has in its hands. -/
inductive Place (F : Type) where
  | between
  /-- `run_one` has taken the fiber from `ready_`. -/
  | picked (f : F)
  | running (f : F)
  /-- `Fiber::resume` has returned, and `run_one` has not decided yet. -/
  | yielded (f : F)
  /-- The events that are left. -/
  | events (fds : List Int)
  | found (f : F) (fds : List Int)
  /-- The expired waits that are left. -/
  | expired (waits : List (Int × F))
deriving DecidableEq

/-- A return from `wait_readable_tmo`, with what is recorded about the wait. -/
structure Result (F : Type) where
  fiber : F
  value : Int
  delivered : Bool
  expired : Bool
deriving DecidableEq

structure State (F : Type) where
  ready : List F
  waiting : List F
  poolWaiters : List F
  fdToFiber : Int → Option F
  fdDeadline : List (Int × Nat)
  timerKeySeq : Int
  /-- The descriptors that epoll watches. -/
  watched : Int → Bool
  now : Nat
  fiber : F → Fiber
  place : Place F
  results : List (Result F)

inductive Action (F : Type) where
  | spawn (f : F)
  /-- The first section of `run_one`. -/
  | pick
  | start
  /-- The fiber that runs gives a job away: to the pool of `fiber_offload_run`, or to whoever
  releases what it waits for. -/
  | post (offload : Bool)
  /-- The section of `suspend_current`. -/
  | suspend
  | suspendForPool
  /-- The section of `wait_readable_tmo`. -/
  | waitReadable (fd timeoutMs : Int)
  /-- `Fiber::yield` in one of these. -/
  | switch
  /-- `Fiber::yield` elsewhere. -/
  | yield
  /-- The function of the fiber returns. -/
  | finish
  /-- `Fiber::yield` returns. -/
  | back
  /-- The last section of `run_one`. -/
  | settle
  /-- `epoll_wait` returns. -/
  | poll (fds : List Int)
  /-- The section for one event. -/
  | event
  | resumeFound
  /-- The section that collects the expired waits. -/
  | sweep
  | resumeExpired
  | endSweep
  /-- The job of a fiber is done. -/
  | jobDone (f : F)
  /-- `resume_fiber` from any thread. -/
  | resume (f : F)
  /-- The section of `notify_pool_waiter`. -/
  | notifyPoolWaiter
  | tick
deriving DecidableEq

section Steps

variable {F : Type} [DecidableEq F]

def State.start : State F :=
  ⟨[], [], [], fun _ => none, [], -2, fun _ => false, 0, fun _ => .fresh, .between, []⟩

def State.set (s : State F) (f : F) (x : Fiber) : State F :=
  { s with fiber := Function.update s.fiber f x }

/-- `resume_fiber`. -/
def resumeFiber (s : State F) (f : F) : State F :=
  let x := s.fiber f
  if x.schedState = .WAITING then
    let s := { s with waiting := s.waiting.erase f }
    if x.done then s.set f { x with answer := .given }
    else { s.set f { x with schedState := .READY, answer := .given } with ready := s.ready ++ [f] }
  else s.set f { x with pendingResume := true, answer := .given }

/-- The last section of `run_one`. -/
def settle (s : State F) (f : F) : State F :=
  let x := s.fiber f
  let s := { s with place := .between }
  if x.done then
    { s.set f { x with schedState := .DONE, pendingResume := false } with
      waiting := s.waiting.erase f, poolWaiters := s.poolWaiters.erase f }
  else if x.schedState = .SUSPENDING then
    if x.pendingResume then
      { s.set f { x with schedState := .READY, pendingResume := false } with
        waiting := s.waiting.erase f, poolWaiters := s.poolWaiters.erase f,
        ready := s.ready ++ [f] }
    else s.set f { x with schedState := .WAITING }
  else
    { s.set f { x with schedState := .READY, pendingResume := false } with
      ready := s.ready ++ [f] }

/-- The section of `wait_readable_tmo`. -/
def waitReadable (s : State F) (f : F) (fd timeoutMs : Int) : State F :=
  if fd < 0 ∧ timeoutMs < 0 then { s with results := s.results ++ [⟨f, -1, false, false⟩] }
  else
    let key := if fd < 0 then s.timerKeySeq else fd
    let deadline := if 0 ≤ timeoutMs then some (s.now + timeoutMs.toNat) else none
    { s.set f { s.fiber f with
        schedState := .SUSPENDING, code := .arming fd key, answer := .fd key,
        deadline := deadline, delivered := false, expired := false } with
      timerKeySeq := if fd < 0 then s.timerKeySeq - 1 else s.timerKeySeq
      fdToFiber := Function.update s.fdToFiber key (some f)
      fdDeadline := match deadline with
        | some d => SortedMap.put key d s.fdDeadline
        | none => s.fdDeadline
      waiting := s.waiting ++ [f] }

/-- The end of `suspend_current`, with the loop around it in `fiber_offload_run`, and that of
`wait_readable_tmo`. -/
def back (s : State F) (f : F) : Option (State F) :=
  let x := s.fiber f
  match x.code with
  | .suspended =>
    some (s.set f (if x.jobOpen then { x with code := .posted }
      else { x with code := .free, answer := .nothing }))
  | .waits _ =>
    let value := if x.ioTimedOut then 0 else 1
    some { s.set f { x with code := .free, answer := .nothing, ioTimedOut := false } with
      results := s.results ++ [⟨f, value, x.delivered, x.expired⟩] }
  | _ => none

/-- What the fiber that runs does. -/
def runStep (s : State F) (f : F) : Action F → Option (State F)
  | .post offload =>
    let x := s.fiber f
    if x.code = .free then
      some (s.set f { x with code := .posted, answer := .owed, jobOpen := offload })
    else none
  | .suspend =>
    let x := s.fiber f
    if x.code = .posted then
      some { s.set f { x with code := .suspending, schedState := .SUSPENDING } with
        waiting := s.waiting ++ [f] }
    else none
  | .suspendForPool =>
    let x := s.fiber f
    if x.code = .free then
      some { s.set f { x with
          code := .suspending, schedState := .SUSPENDING, answer := .pool } with
        waiting := s.waiting ++ [f], poolWaiters := s.poolWaiters ++ [f] }
    else none
  | .waitReadable fd timeoutMs =>
    if (s.fiber f).code = .free then some (waitReadable s f fd timeoutMs) else none
  | .switch =>
    let x := s.fiber f
    match x.code with
    | .suspending => some { s.set f { x with code := .suspended } with place := .yielded f }
    | .arming fd key =>
      some { s.set f { x with code := .waits key } with
        place := .yielded f
        watched := if 0 ≤ fd then Function.update s.watched fd true else s.watched }
    | _ => none
  | .yield => if (s.fiber f).code = .free then some { s with place := .yielded f } else none
  | .finish =>
    let x := s.fiber f
    if x.code = .free then some { s.set f { x with done := true } with place := .yielded f }
    else none
  | .back => back s f
  | _ => none

/-- The keys of the deadlines that are over. -/
def State.due (s : State F) : List Int := (s.fdDeadline.filter fun p => p.2 ≤ s.now).map Prod.fst

/-- The wait of the fiber is among those that the sweep finds. -/
def Fiber.sweep (now : Nat) (due : List Int) (x : Fiber) : Fiber :=
  match x.answer with
  | .fd key =>
    if key ∈ due then
      { x with answer := .expired key, expired := x.deadline.any fun d => decide (d ≤ now) }
    else x
  | _ => x

/-- An event for the descriptor of its wait is delivered. -/
def Fiber.deliver (fds : List Int) (x : Fiber) : Fiber :=
  match x.answer with
  | .fd key => if key ∈ fds then { x with delivered := true } else x
  | _ => x

/-- The section of the sweep. -/
def sweep (s : State F) : State F :=
  { s with
    fdToFiber := fun key => if key ∈ s.due then none else s.fdToFiber key
    fdDeadline := s.fdDeadline.filter fun p => !decide (p.2 ≤ s.now)
    fiber := fun f => (s.fiber f).sweep s.now s.due
    place := .expired (s.due.filterMap fun key => (s.fdToFiber key).map fun f => (key, f)) }

/-- The section for an event. -/
def event (s : State F) (fd : Int) (fds : List Int) : State F :=
  let s := { s with
    watched := Function.update s.watched fd false
    fdDeadline := SortedMap.erase fd s.fdDeadline }
  match s.fdToFiber fd with
  | some f => { s.set f { s.fiber f with answer := .found } with
      fdToFiber := Function.update s.fdToFiber fd none, place := .found f fds }
  | none => { s with place := .events fds }

/-- What the thread of the scheduler does itself. -/
def loopStep (s : State F) : Action F → Option (State F)
  | .pick =>
    match s.place, s.ready with
    | .between, f :: ready => some { s with ready := ready, place := .picked f }
    | _, _ => none
  | .start =>
    match s.place with
    | .picked f =>
      some { s.set f { s.fiber f with schedState := .RUNNING } with place := .running f }
    | _ => none
  | .settle => match s.place with | .yielded f => some (settle s f) | _ => none
  | .poll fds =>
    match s.place with
    | .between =>
      if ∀ fd ∈ fds, s.watched fd = true then
        some { s with fiber := fun f => (s.fiber f).deliver fds, place := .events fds }
      else none
    | _ => none
  | .event => match s.place with | .events (fd :: fds) => some (event s fd fds) | _ => none
  | .resumeFound =>
    match s.place with
    | .found f fds => some { resumeFiber s f with place := .events fds }
    | _ => none
  | .sweep => match s.place with | .events [] => some (sweep s) | _ => none
  | .resumeExpired =>
    match s.place with
    | .expired ((key, f) :: rest) =>
      let s := s.set f { s.fiber f with ioTimedOut := true }
      some { resumeFiber s f with
        place := .expired rest
        watched := if 0 ≤ key then Function.update s.watched key false else s.watched }
    | _ => none
  | .endSweep => match s.place with | .expired [] => some { s with place := .between } | _ => none
  | _ => none

/-- What any thread does at any time. -/
def otherStep (s : State F) : Action F → Option (State F)
  | .spawn f =>
    if (s.fiber f).spawned then none
    else some { s.set f { s.fiber f with spawned := true } with ready := s.ready ++ [f] }
  | .jobDone f =>
    if (s.fiber f).jobOpen then some (s.set f { s.fiber f with jobOpen := false }) else none
  | .resume f => some (resumeFiber s f)
  | .notifyPoolWaiter =>
    match s.poolWaiters with
    | [] => some s
    | f :: rest =>
      some { s.set f { s.fiber f with answer := .owed } with poolWaiters := rest }
  | .tick => some { s with now := s.now + 1 }
  | _ => none

/-- One step.  Nothing when it cannot happen. -/
def step (s : State F) (a : Action F) : Option (State F) :=
  match s.place with
  | .running f => (runStep s f a).or (otherStep s a)
  | _ => (loopStep s a).or (otherStep s a)

def Step (s : State F) (a : Action F) (s' : State F) : Prop := step s a = some s'

/-- Every suspension is answered exactly once.  `resume_fiber` is called by who owes an answer, in
`fiber_offload_run` after the job is done, and no fiber waits for a descriptor while another one
does, which would take the entry with the answer of the other one away. -/
def answers (s : State F) : Action F → Bool
  | .resume f => decide ((s.fiber f).answer = .owed) && !(s.fiber f).jobOpen
  | .waitReadable fd _ => decide (fd < 0) || (s.fdToFiber fd).isNone
  | _ => true

def Answers (s : State F) (a : Action F) : Prop := answers s a = true

end Steps

/-! ## What the scheduler guarantees -/

section Guarantees

variable {F : Type}

/-- The thread of the scheduler has the fiber: it has taken it from `ready_` and not decided yet
where it goes. -/
def Place.holds : Place F → F → Prop
  | .picked g, f => g = f
  | .running g, f => g = f
  | .yielded g, f => g = f
  | _, _ => False

/-- `run_one` has still to look at the suspension of the fiber. -/
def Fiber.Unsettled (x : Fiber) : Prop := x.code = .posted ∨ x.schedState = .SUSPENDING

/-- What callers rely on: no fiber is ready twice, or ready while it runs; who is suspended is in
`waiting_`; a fiber whose suspension was answered is ready, or runs, or `pending_resume_` is set
for the `run_one` that has it, and who waits has an answer to come; and `wait_readable_tmo` tells
the truth. -/
structure Safe (s : State F) : Prop where
  ready : s.ready.Nodup
  running : ∀ f, s.place.holds f → f ∉ s.ready
  waiting : ∀ f, f ∈ s.waiting ↔
    (s.fiber f).schedState = .SUSPENDING ∨ (s.fiber f).schedState = .WAITING
  kept : ∀ f, (s.fiber f).answer = .given → f ∈ s.ready ∨
    (s.place.holds f ∧ ((s.fiber f).Unsettled → (s.fiber f).pendingResume = true))
  awaited : ∀ f, (s.fiber f).schedState = .WAITING →
    (s.fiber f).answer ≠ .nothing ∧ (s.fiber f).answer ≠ .given
  results : ∀ r ∈ s.results, (r.value = 1 → r.delivered = true) ∧ (r.value = 0 → r.expired = true)

end Guarantees

end Fibers

end Look
