/-
The job queue: the table `look_jobs` and the workers of all processes.

Every SQL statement is one step, and any number of workers take steps in any order.
`next` and `done` are one statement each.  `fail` reads the counters with one statement
and writes with another, so that it is two steps.

`handed` is not part of the source: it records each job that was handed out, with the
time.  The number of the attempt that a worker is at is not part of the source either.
-/
import Mathlib.Logic.Function.Basic
import Look.Lib.Reach
import Look.Lib.Rows

namespace Look

namespace Jobs

/-! ## The table -/

inductive Status where
  | pending
  | processing
  | done
  | failed
deriving DecidableEq

structure Job where
  id : Nat
  queue : String
  payload : String
  status : Status
  retryCount : Int
  maxRetries : Int
  runAfter : Int
  createdAt : Int
  updatedAt : Int
deriving DecidableEq

/-- The rows in the order of their ids, and the last id given out. -/
structure JobStore where
  jobs : List Job
  lastId : Nat
deriving DecidableEq

def JobStore.empty : JobStore := ⟨[], 0⟩

/-- An UPDATE of the table. -/
def JobStore.update (t : JobStore) (p : Job → Bool) (f : Job → Job) : JobStore :=
  { t with jobs := updateWhere p f t.jobs }

/-- `JobStore::push`. -/
def JobStore.push (t : JobStore) (queue payload : String) (maxRetries delaySeconds now : Int) :
    Nat × JobStore :=
  let id := t.lastId + 1
  (id, ⟨t.jobs ++ [⟨id, queue, payload, .pending, 0, maxRetries, now + delaySeconds, now, now⟩],
    id⟩)

/-- The condition of the SELECT in `JobStore::next`. -/
def due (queue : String) (now : Int) (j : Job) : Bool :=
  j.queue == queue && j.status == .pending && j.runAfter ≤ now

/-- `JobStore::next`: the first job that is due, which is processing from now on. -/
def JobStore.next (t : JobStore) (queue : String) (now : Int) : Option Job × JobStore :=
  match t.jobs.find? (due queue now) with
  | none => (none, t)
  | some j =>
    (some { j with status := .processing, updatedAt := now },
      t.update (fun k => k.id == j.id && k.status == .pending)
        fun k => { k with status := .processing, updatedAt := now })

/-- `JobStore::done`. -/
def JobStore.done (t : JobStore) (id : Nat) (now : Int) : JobStore :=
  t.update (fun k => k.id == id) fun k => { k with status := .done, updatedAt := now }

/-- The SELECT of `JobStore::fail`. -/
def JobStore.failRead (t : JobStore) (id : Nat) : Int × Int :=
  match t.jobs.find? fun k => k.id == id with
  | some j => (j.retryCount, j.maxRetries)
  | none => (0, 3)

/-- The UPDATE of `JobStore::fail`. -/
def JobStore.failWrite (t : JobStore) (id : Nat) (retryCount maxRetries now : Int) : JobStore :=
  let newCount := retryCount + 1
  let newStatus := if maxRetries ≤ newCount then Status.failed else .pending
  t.update (fun k => k.id == id) fun k =>
    { k with status := newStatus, retryCount := newCount, updatedAt := now }

/-- `JobStore::retry`. -/
def JobStore.retry (t : JobStore) (id : Nat) (now : Int) : JobStore :=
  t.update (fun k => k.id == id && k.status == .failed) fun k =>
    { k with status := .pending, updatedAt := now }

/-- The condition of `JobStore::recover`. -/
def stuck (queue : String) (minAgeSeconds now : Int) (j : Job) : Bool :=
  j.queue == queue && j.status == .processing &&
    (minAgeSeconds ≤ 0 || j.updatedAt ≤ now - minAgeSeconds)

/-- `JobStore::recover`. -/
def JobStore.recover (t : JobStore) (queue : String) (minAgeSeconds now : Int) : Nat × JobStore :=
  (t.jobs.countP (stuck queue minAgeSeconds now),
    t.update (stuck queue minAgeSeconds now) fun k => { k with status := .pending, updatedAt := now })

/-! ## Workers -/

/-- A worker between `next` and the end of `done` or `fail`, with the job and the number
of the attempt; in the middle of `fail`, also with the counters that it has read. -/
inductive Worker where
  | idle
  | holding (id attempt : Nat)
  | failing (id attempt : Nat) (retryCount maxRetries : Int)
deriving DecidableEq

/-- The job that a worker holds, with its attempt. -/
def Worker.job : Worker → Option (Nat × Nat)
  | .idle => none
  | .holding id attempt => some (id, attempt)
  | .failing id attempt _ _ => some (id, attempt)

structure System where
  store : JobStore
  workers : Nat → Worker
  handed : List (Job × Int)

def System.start : System := ⟨.empty, fun _ => .idle, []⟩

/-- How often a job was handed out. -/
def System.attempts (s : System) (id : Nat) : Nat := s.handed.countP fun h => h.1.id == id

inductive Action where
  | push (queue payload : String) (maxRetries delaySeconds now : Int)
  | next (w : Nat) (queue : String) (now : Int)
  | done (w : Nat) (now : Int)
  | failRead (w : Nat)
  | failWrite (w : Nat) (now : Int)
  | crash (w : Nat)
  | recover (queue : String) (minAgeSeconds now : Int)
  | retry (id : Nat) (now : Int)

/-- A worker that asks for a job. -/
def System.next (s : System) (w : Nat) (queue : String) (now : Int) : System :=
  match s.store.next queue now with
  | (none, t) => { s with store := t }
  | (some j, t) =>
    { store := t
      workers := Function.update s.workers w (.holding j.id (s.attempts j.id + 1))
      handed := s.handed ++ [(j, now)] }

/-- One step.  Nothing when it cannot happen. -/
def step (s : System) : Action → Option System
  | .push queue payload maxRetries delaySeconds now =>
    some { s with store := (s.store.push queue payload maxRetries delaySeconds now).2 }
  | .next w queue now =>
    match s.workers w with
    | .idle => some (s.next w queue now)
    | _ => none
  | .done w now =>
    match s.workers w with
    | .holding id _ => some { s with
        store := s.store.done id now, workers := Function.update s.workers w .idle }
    | _ => none
  | .failRead w =>
    match s.workers w with
    | .holding id attempt =>
      let (retryCount, maxRetries) := s.store.failRead id
      some { s with
        workers := Function.update s.workers w (.failing id attempt retryCount maxRetries) }
    | _ => none
  | .failWrite w now =>
    match s.workers w with
    | .failing id _ retryCount maxRetries => some { s with
        store := s.store.failWrite id retryCount maxRetries now
        workers := Function.update s.workers w .idle }
    | _ => none
  | .crash w => some { s with workers := Function.update s.workers w .idle }
  | .recover queue minAgeSeconds now =>
    some { s with store := (s.store.recover queue minAgeSeconds now).2 }
  | .retry id now => some { s with store := s.store.retry id now }

def Step (s : System) (a : Action) (s' : System) : Prop := step s a = some s'

def steps (s : System) (actions : List Action) : Option System := actions.foldlM step s

end Jobs

end Look
