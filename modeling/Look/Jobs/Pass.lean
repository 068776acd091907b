/-
`jobs::run(0)`: one pass over the queues of the registered workers.

A handler may do anything to the world: it may push, finish and recover jobs, and it may not come
back.  Every exception of the interpreter is a `std::exception`, `exit` and `stop` too, so that one
constructor stands for all that `invoke` throws.  Between two statements other processes write to
the table and time goes by.  A statement may fail to be prepared, and the copy of the interpreter
may fail to be made.  The workers are a vector that the pass walks through; where a handler
registers another one the rest of the pass is undefined.

`trace` is not part of the source: it records what the pass does with each job that it is given.
-/
import Mathlib.Algebra.Group.Int.Defs
import Mathlib.Algebra.Group.Nat.Defs
import Look.Arith.Ieee
import Look.Jobs.Store
import Look.Lib.Logged

namespace Look

namespace Jobs

/-- What a program makes of the byte of a `bool`: only 0 and 1 are laid down. -/
structure BoolRead where
  value : UInt8 → Bool
  zero : value 0 = false
  one : value 1 = true

/-- The first byte of the union in a value. -/
def payloadByte : Value → UInt8
  | .int i => UInt8.ofBitVec (i.toBitVec.setWidth 8)
  | .float d => UInt8.ofBitVec (d.bits.setWidth 8)
  | .bool b => if b then 1 else 0
  | _ => 0

inductive Outcome where
  | returned (v : Value)
  | threw (what : String)
deriving DecidableEq

/-- `rest` is all that a program can change besides the jobs and the workers. -/
structure World (σ : Type) where
  store : JobStore
  workers : List (String × Value)
  rest : σ
deriving DecidableEq

structure Machine (σ : Type) where
  read : BoolRead
  lib : DoubleOps
  now : World σ → Int
  /-- What the other processes and the clock have done until the next statement. -/
  elapse : World σ → JobStore × σ
  /-- The next statement cannot be prepared. -/
  unprepared : World σ → Bool
  /-- `make_dispatch_copy` throws. -/
  copyFails : World σ → Bool
  /-- A handler with the job; `none` where it does not come back. -/
  invoke : Value → List Value → World σ → Option (Outcome × World σ)

inductive Event where
  /-- `next` has given this job. -/
  | claimed (id : Nat)
  | noCopy
  | ended (o : Outcome)
  | done (id : Int64)
  | fail (id : Int64)
  /-- A statement of `done` or `fail` could not be prepared. -/
  | unreported
deriving DecidableEq

structure PassState (σ : Type) where
  world : World σ
  trace : List Event
deriving DecidableEq

/-- How a pass ends that does not return. -/
inductive Left where
  | threw (what : String)
  | undefined
deriving DecidableEq

abbrev Run (σ α : Type) := Exec (PassState σ) Left α

/-- `make_assoc`. -/
def makeAssoc (kvs : List (String × Value)) : List Value :=
  .string "__assoc__" :: kvs.flatMap fun (k, v) => [.string k, v]

/-- The job as `JobStore::next` returns it. -/
def assoc (queue : String) (j : Job) : List Value :=
  makeAssoc [("id", .int (.ofNat j.id)), ("payload", .string j.payload), ("queue", .string queue),
    ("retry_count", .int (.ofInt j.retryCount)), ("max_retries", .int (.ofInt j.maxRetries)),
    ("run_after", .int (.ofInt j.runAfter))]

/-- The loop over the keys of a job; `job_id` stays 0 where there is no id. -/
def idOf (lib : DoubleOps) : List Value → Int64
  | k :: v :: rest =>
    if k = .string "id" then (@Value.toFloat (.ieee lib) v).truncate else idOf lib rest
  | _ => 0

def jobId (lib : DoubleOps) (job : List Value) : Int64 := idOf lib (job.drop 1)

section Pass

variable {σ : Type} (M : Machine σ)

def record (e : Event) : Run σ Unit := Exec.modify fun s => { s with trace := s.trace ++ [e] }

def setStore (t : JobStore) : Run σ Unit :=
  Exec.modify fun s => { s with world := { s.world with store := t } }

/-- The helper `prepare`; `missed` is what is recorded where it throws. -/
def prepare (missed : List Event) : Run σ Unit := fun s =>
  let (t, r) := M.elapse s.world
  let w := { s.world with store := t, rest := r }
  if M.unprepared w then .error (.threw "jobs:: SQL prepare error") ⟨w, s.trace ++ missed⟩
  else .ok () ⟨w, s.trace⟩

def next (queue : String) : Run σ (Option (List Value)) := do
  prepare M []
  let w ← Exec.gets PassState.world
  match w.store.next queue (M.now w) with
  | (none, _) => pure none
  | (some j, t) => do
    setStore t
    record (.claimed j.id)
    pure (some (assoc queue j))

/-- The id of a row is not negative. -/
def done (id : Int64) : Run σ Unit := do
  prepare M [.unreported]
  let w ← Exec.gets PassState.world
  setStore (w.store.done id.toInt.toNat (M.now w))
  record (.done id)

def fail (id : Int64) : Run σ Unit := do
  prepare M [.unreported]
  let w ← Exec.gets PassState.world
  let (retryCount, maxRetries) := w.store.failRead id.toInt.toNat
  prepare M [.unreported]
  let w ← Exec.gets PassState.world
  setStore (w.store.failWrite id.toInt.toNat retryCount maxRetries (M.now w))
  record (.fail id)

def invoke (fn : Value) (job : List Value) : Run σ Outcome := fun s =>
  match M.invoke fn job s.world with
  | none => .timeout
  | some (o, w) =>
    if w.workers = s.world.workers then .ok o ⟨w, s.trace ++ [.ended o]⟩
    else .error .undefined ⟨w, s.trace ++ [.ended o]⟩

/-- `ok` behind the handler: `as_bool` reads the byte of a `bool`, whatever the value is. -/
def Machine.ok : Outcome → Bool
  | .returned v => M.read.value (payloadByte v)
  | .threw _ => false

def turn (fn : Value) (job : List Value) : Run σ Unit := do
  let id := jobId M.lib job
  let w ← Exec.gets PassState.world
  if M.copyFails w then do
    record .noCopy
    Exec.throw (.threw "std::bad_alloc")
  else do
    let o ← invoke M fn job
    if M.ok o then done M id else fail M id

/-- The inner loop of `run_one_pass`. -/
def drain (queue : String) (fn : Value) : Nat → Run σ Unit
  | 0 => Exec.timeout
  | fuel + 1 => do
    match ← next M queue with
    | none => pure ()
    | some job => do
      turn M fn job
      drain queue fn fuel

/-- `jobs::run(0)`. -/
def run (fuel : Nat) : Run σ Value := do
  let workers ← Exec.gets fun s : PassState σ => s.world.workers
  if workers = [] then
    Exec.throw (.threw "jobs::run() — register a handler first with jobs::worker()")
  else do
    Exec.forEach workers fun (queue, fn) => drain M queue fn fuel
    pure (.bool true)

/-! ## What a pass does with a job -/

/-- A job that the pass was given, and what its handler did. -/
structure Turn where
  id : Nat
  outcome : Outcome

/-- The id that the report is made under. -/
def reportId (id : Nat) : Int64 := Double.truncate ⟨Binary64.ofInt (Int64.ofNat id).toInt⟩

def report (x : Turn) : Event :=
  if M.ok x.outcome then .done (reportId x.id) else .fail (reportId x.id)

def events (x : Turn) : List Event := [.claimed x.id, .ended x.outcome, report M x]

/-- What stands in the trace of the turns. -/
def Turns (es : List Event) : Prop := ∃ xs : List Turn, es = xs.flatMap (events M)

/-- What stands behind the turns when the pass ends by an exception. -/
inductive Broken : Left → List Event → Prop where
  | between {e} : Broken e []
  | noCopy {e id} : Broken e [.claimed id, .noCopy]
  | unreported {e id o} : Broken e [.claimed id, .ended o, .unreported]
  | undefined {es} : Broken .undefined es

/-- The trace of a pass that ends by an exception. -/
def Cut (e : Left) (es : List Event) : Prop :=
  ∃ (xs : List Turn) (tail : List Event), es = xs.flatMap (events M) ++ tail ∧ Broken e tail

section Steps

variable {M} {queue : String} {fn : Value} {fuel : Nat}

theorem record_adds (e : Event) {E : Left → List Event → Prop} :
    Exec.Adds PassState.trace (record e : Run σ Unit) (fun _ es => es = [e]) E :=
  fun _ => ⟨[e], rfl, rfl⟩

theorem setStore_adds (t : JobStore) {E : Left → List Event → Prop} :
    Exec.Adds PassState.trace (setStore t : Run σ Unit) (fun _ es => es = []) E :=
  fun s => ⟨[], (List.append_nil s.trace).symm, rfl⟩

theorem gets_adds {α : Type} (g : PassState σ → α) {E : Left → List Event → Prop} :
    Exec.Adds PassState.trace (Exec.gets g : Run σ α) (fun _ es => es = []) E :=
  Exec.Adds.gets fun _ => rfl

theorem prepare_adds (missed : List Event) :
    Exec.Adds PassState.trace (prepare M missed) (fun _ es => es = []) fun _ es => es = missed := by
  intro s
  rw [prepare]
  simp only
  generalize M.unprepared _ = failed
  cases failed with
  | true => exact ⟨missed, rfl, rfl⟩
  | false => exact ⟨[], (List.append_nil s.trace).symm, rfl⟩

theorem next_adds : Exec.Adds PassState.trace (next M queue)
    (fun r es => r = none ∧ es = [] ∨ ∃ j, r = some (assoc queue j) ∧ es = [.claimed j.id])
    fun _ es => es = [] := by
  refine Exec.Adds.quiet_bind (prepare_adds []) fun _ => ?_
  refine Exec.Adds.quiet_bind (gets_adds _) fun w => ?_
  cases w.store.next queue (M.now w) with
  | mk j t =>
    cases j with
    | none => exact Exec.Adds.pure (.inl ⟨rfl, rfl⟩)
    | some j =>
      refine Exec.Adds.quiet_bind (setStore_adds t) fun _ => ?_
      refine Exec.Adds.bind (record_adds (E := fun _ es => es = []) _) ?_ fun _ _ h => h
      rintro _ _ rfl
      exact Exec.Adds.pure (.inr ⟨j, rfl, rfl⟩)

theorem done_adds (id : Int64) : Exec.Adds PassState.trace (done M id)
    (fun _ es => es = [.done id]) fun _ es => es = [.unreported] := by
  refine Exec.Adds.quiet_bind (prepare_adds _) fun _ => ?_
  refine Exec.Adds.quiet_bind (gets_adds _) fun w => ?_
  exact Exec.Adds.quiet_bind (setStore_adds _) fun _ => record_adds _

theorem fail_adds (id : Int64) : Exec.Adds PassState.trace (fail M id)
    (fun _ es => es = [.fail id]) fun _ es => es = [.unreported] := by
  refine Exec.Adds.quiet_bind (prepare_adds _) fun _ => ?_
  refine Exec.Adds.quiet_bind (gets_adds _) fun w => ?_
  refine Exec.Adds.quiet_bind (prepare_adds _) fun _ => ?_
  refine Exec.Adds.quiet_bind (gets_adds _) fun w => ?_
  exact Exec.Adds.quiet_bind (setStore_adds _) fun _ => record_adds _

theorem invoke_adds (job : List Value) : Exec.Adds PassState.trace (invoke M fn job)
    (fun o es => es = [.ended o]) fun e _ => e = .undefined := by
  intro s
  rw [invoke]
  cases M.invoke fn job s.world with
  | none => trivial
  | some r =>
    simp only
    split
    · rename_i h
      split at h <;> cases h
      exact ⟨_, rfl, rfl⟩
    · rename_i h
      split at h <;> cases h
      exact ⟨_, rfl, rfl⟩
    · trivial

theorem idOf_id (lib : DoubleOps) (i : Int64) (rest : List Value) :
    idOf lib (.string "id" :: .int i :: rest) = Double.truncate ⟨Binary64.ofInt i.toInt⟩ := by
  have hfloat : @Value.toFloat (.ieee lib) (.int i) = ⟨Binary64.ofInt i.toInt⟩ := rfl
  rw [idOf, if_pos rfl, hfloat]

theorem jobId_assoc (queue : String) (j : Job) : jobId M.lib (assoc queue j) = reportId j.id :=
  idOf_id M.lib (.ofNat j.id) _

theorem turn_adds (j : Job) : Exec.Adds PassState.trace (turn M fn (assoc queue j))
    (fun _ es => ∃ o, .claimed j.id :: es = events M ⟨j.id, o⟩)
    fun e es => Broken e (.claimed j.id :: es) := by
  rw [turn, jobId_assoc]
  refine Exec.Adds.quiet_bind (gets_adds _) fun w => ?_
  split
  · refine Exec.Adds.bind (record_adds (E := fun e es => Broken e (.claimed j.id :: es)) _) ?_
      fun _ _ h => h
    rintro _ _ rfl
    exact Exec.Adds.throw .noCopy
  · refine Exec.Adds.bind (invoke_adds _) ?_ fun e es h => h ▸ Broken.undefined
    rintro o _ rfl
    have hreport : report M ⟨j.id, o⟩ =
        if M.ok o then .done (reportId j.id) else .fail (reportId j.id) := rfl
    split
    · rename_i hok
      refine (done_adds _).mono ?_ ?_
      · rintro _ _ rfl
        exact ⟨o, by rw [events, hreport, if_pos hok]; rfl⟩
      · rintro _ _ rfl
        exact .unreported
    · rename_i hok
      refine (fail_adds _).mono ?_ ?_
      · rintro _ _ rfl
        exact ⟨o, by rw [events, hreport, if_neg hok]; rfl⟩
      · rintro _ _ rfl
        exact .unreported

theorem turns_nil : Turns M [] := ⟨[], rfl⟩

theorem turns_append {es fs : List Event} (hes : Turns M es) (hfs : Turns M fs) :
    Turns M (es ++ fs) := by
  obtain ⟨xs, rfl⟩ := hes
  obtain ⟨ys, rfl⟩ := hfs
  exact ⟨xs ++ ys, List.flatMap_append.symm⟩

theorem cut_append {e : Left} {es fs : List Event} (hes : Turns M es) (hfs : Cut M e fs) :
    Cut M e (es ++ fs) := by
  obtain ⟨xs, rfl⟩ := hes
  obtain ⟨ys, tail, rfl, htail⟩ := hfs
  exact ⟨xs ++ ys, tail, by rw [List.flatMap_append, List.append_assoc], htail⟩

theorem cut_of_broken {e : Left} {es : List Event} (h : Broken e es) : Cut M e es :=
  ⟨[], es, rfl, h⟩

/-- The pass over one queue is turns, one behind the other. -/
theorem drain_adds (fuel : Nat) : Exec.Adds PassState.trace (drain M queue fn fuel)
    (fun _ es => Turns M es) (Cut M) := by
  induction fuel with
  | zero => exact Exec.Adds.timeout
  | succ fuel ih =>
    rw [drain]
    refine Exec.Adds.bind next_adds ?_ fun e es h => h ▸ cut_of_broken .between
    rintro _ _ (⟨rfl, rfl⟩ | ⟨j, rfl, rfl⟩)
    · exact Exec.Adds.pure turns_nil
    · refine Exec.Adds.bind (turn_adds j) ?_ fun e es h => cut_of_broken h
      rintro _ es ⟨o, ho⟩
      have hturn : Turns M (.claimed j.id :: es) := ⟨[⟨j.id, o⟩], by rw [ho]; rfl⟩
      refine ih.mono (fun _ fs hfs => ?_) fun e fs hfs => ?_
      · have hmore := turns_append hturn hfs
        exact hmore
      · have hmore := cut_append hturn hfs
        exact hmore

theorem run_adds (fuel : Nat) : Exec.Adds PassState.trace (run M fuel)
    (fun _ es => Turns M es) (Cut M) := by
  refine Exec.Adds.quiet_bind (gets_adds _) fun workers => ?_
  split
  · exact Exec.Adds.throw (cut_of_broken .between)
  · refine Exec.Adds.bind (Exec.Adds.forEach turns_nil (fun _ _ => turns_append)
      (fun _ _ _ => cut_append) fun _ _ => drain_adds fuel) ?_ fun _ _ h => h
    intro _ es hes
    refine Exec.Adds.pure ?_
    rwa [List.append_nil]

end Steps

/-! ## Reports -/

/-- Every job that was claimed has been reported once under its id before the next one is claimed,
as done exactly when its handler returned true. -/
inductive Settled : List Event → Prop where
  | nil : Settled []
  | done {id : Nat} {x : Int64} {es} (hid : x.toInt = id) (rest : Settled es) :
    Settled (.claimed id :: .ended (.returned (.bool true)) :: .done x :: es)
  | fail {id : Nat} {x : Int64} {o es} (hid : x.toInt = id) (ho : o ≠ .returned (.bool true))
    (rest : Settled es) :
    Settled (.claimed id :: .ended o :: .fail x :: es)

/-- The handler gave a value that `as_bool` reads as it should, or an exception. -/
def Plain : Outcome → Prop
  | .returned (.bool _) => True
  | .returned v => M.read.value (payloadByte v) = false
  | .threw _ => True

/-- The id is exact as a binary64 number, the handler's value is read as it should be, the
interpreter was copied and the report was prepared. -/
def Harmless : Event → Prop
  | .claimed id => id < 2 ^ 63 ∧ Binary64.Exact id
  | .ended o => Plain M o
  | .noCopy | .unreported => False
  | .done _ | .fail _ => True

section Reports

variable {M} {es fs : List Event} {x : Turn}

theorem toInt_truncate_iff {b : BitVec 64} {n : Nat} (hb : Binary64.isNaN b = false)
    (hn : n < 2 ^ 63) : (Double.truncate ⟨b⟩).toInt = n ↔ Binary64.toInt b = n := by
  have hmin : (Int64.ofInt int64Min).toInt = int64Min := rfl
  have hneg : int64Min < 0 := by decide
  have hmax : (n : Int) ≤ int64Max := by
    rw [int64Max]
    omega
  rw [Double.truncate]
  simp only [hb, Bool.false_or]
  split
  · rename_i hout
    rw [Bool.or_eq_true, decide_eq_true_eq, decide_eq_true_eq] at hout
    rw [hmin]
    exact iff_of_false (by omega) (by omega)
  · rename_i hin
    rw [Bool.or_eq_true, decide_eq_true_eq, decide_eq_true_eq, not_or] at hin
    rw [Int64.toInt_ofInt_of_le (Int.not_lt.mp hin.1)
      (Int.lt_add_one_iff.mpr (Int.not_lt.mp hin.2))]

/-- The report is made under the job's own id where this is exact. -/
theorem reportId_iff (id : Nat) :
    (reportId id).toInt = id ↔ id < 2 ^ 63 ∧ Binary64.Exact id := by
  by_cases hid : id < 2 ^ 63
  · have hint : (Int64.ofNat id).toInt = id := Int64.toInt_ofNat_of_lt hid
    rw [reportId, hint, toInt_truncate_iff (Binary64.isNaN_ofInt _) hid,
      Binary64.toInt_ofInt_iff hid, and_iff_right hid]
  · refine iff_of_false (fun h => hid ?_) fun h => hid h.1
    have hlt := (reportId id).toInt_lt
    rw [h] at hlt
    exact_mod_cast hlt

theorem plain_iff (o : Outcome) : Plain M o ↔ (M.ok o = true ↔ o = .returned (.bool true)) := by
  cases o with
  | threw what => exact iff_of_true trivial (iff_of_false Bool.false_ne_true nofun)
  | returned v =>
    rw [Machine.ok, Outcome.returned.injEq]
    cases v with
    | bool b =>
      cases b with
      | true => exact iff_of_true trivial (iff_of_true M.read.one rfl)
      | false =>
        refine iff_of_true trivial (iff_of_false ?_ nofun)
        rw [payloadByte, if_neg Bool.false_ne_true, M.read.zero]
        exact Bool.false_ne_true
    | _ =>
      rw [Plain, ← Bool.not_eq_true]
      · exact ⟨fun h => iff_of_false h nofun, fun h hread => absurd (h.mp hread) nofun⟩
      · exact nofun

theorem settled_events (x : Turn) (es : List Event) :
    Settled (events M x ++ es) ↔
      (x.id < 2 ^ 63 ∧ Binary64.Exact x.id) ∧ Plain M x.outcome ∧ Settled es := by
  obtain ⟨id, o⟩ := x
  rw [← reportId_iff, plain_iff, events, report]
  constructor
  · intro h
    cases hok : M.ok o with
    | true =>
      rw [hok, if_pos rfl] at h
      cases h with
      | done hid rest => exact ⟨hid, iff_of_true rfl rfl, rest⟩
    | false =>
      rw [hok, if_neg Bool.false_ne_true] at h
      cases h with
      | fail hid ho rest => exact ⟨hid, iff_of_false Bool.false_ne_true ho, rest⟩
  · rintro ⟨hid, ho, rest⟩
    cases hok : M.ok o with
    | true =>
      obtain rfl := ho.mp hok
      exact .done hid rest
    | false =>
      refine .fail hid (fun htrue => ?_) rest
      rw [ho.mpr htrue] at hok
      cases hok

theorem harmless_events (x : Turn) : (∀ e ∈ events M x, Harmless M e) ↔
    (x.id < 2 ^ 63 ∧ Binary64.Exact x.id) ∧ Plain M x.outcome := by
  have hreport : Harmless M (report M x) := by
    rw [report]
    split <;> trivial
  rw [events, List.forall_mem_cons, List.forall_mem_cons, List.forall_mem_singleton]
  exact and_congr_right fun _ => and_iff_left hreport

theorem settled_turns (xs : List Turn) (tail : List Event) :
    Settled (xs.flatMap (events M) ++ tail) ↔
      (∀ e ∈ xs.flatMap (events M), Harmless M e) ∧ Settled tail := by
  induction xs with
  | nil => exact (and_iff_right nofun).symm
  | cons x xs ih =>
    rw [List.flatMap_cons, List.append_assoc, settled_events, ih, List.forall_mem_append,
      harmless_events]
    simp only [and_assoc]

/-- A trace that ends in the middle of a turn is settled as little as it is harmless. -/
theorem broken_iff {what : String} (h : Broken (.threw what) es) :
    Settled es ↔ ∀ e ∈ es, Harmless M e := by
  cases h with
  | between => exact iff_of_true .nil nofun
  | noCopy =>
    refine iff_of_false nofun fun h => h .noCopy ?_
    exact List.mem_cons_of_mem _ List.mem_cons_self
  | unreported =>
    refine iff_of_false nofun fun h => h .unreported ?_
    exact List.mem_cons_of_mem _ (List.mem_cons_of_mem _ List.mem_cons_self)

end Reports

/-- The pass is left, normally or by an exception, and this is its trace. -/
inductive Leaves (fuel : Nat) (w : World σ) (es : List Event) : Prop where
  | returns {v s} (h : run M fuel ⟨w, []⟩ = .ok v s) (hes : s.trace = es)
  | throws {what s} (h : run M fuel ⟨w, []⟩ = .error (.threw what) s) (hes : s.trace = es)

/-- A pass that is left has settled all its jobs exactly when nothing in it was harmful. -/
theorem run_settled_iff {fuel : Nat} {w : World σ} {es : List Event} (h : Leaves M fuel w es) :
    Settled es ↔ ∀ e ∈ es, Harmless M e := by
  cases h with
  | returns h hes =>
    obtain ⟨fs, hlog, xs, rfl⟩ := (run_adds fuel).of_ok h
    obtain rfl : xs.flatMap (events M) = es := hlog.symm.trans hes
    have hxs := settled_turns (M := M) xs []
    rwa [List.append_nil, and_iff_left .nil] at hxs
  | throws h hes =>
    obtain ⟨fs, hlog, xs, tail, rfl, htail⟩ := (run_adds fuel).of_error h
    obtain rfl : xs.flatMap (events M) ++ tail = es := hlog.symm.trans hes
    rw [settled_turns, broken_iff htail, List.forall_mem_append]

end Pass

/-! ## Passes over one job -/

/-- One job and one worker. -/
def oneJob (id : Nat) : World Unit where
  store := ⟨[⟨id, "mail", "", .pending, 0, 3, 0, 0, 0⟩], id⟩
  workers := [("mail", .function 0)]
  rest := ()

/-- Every handler returns this value, and nothing else happens. -/
def returning (v : Value) : Machine Unit where
  read := ⟨fun b => b ≠ 0, rfl, rfl⟩
  lib := .host
  now _ := 0
  elapse w := (w.store, ())
  unprepared _ := false
  copyFails _ := false
  invoke _ _ w := some (.returned v, w)

/-- A handler that returns true. -/
theorem run_settled_true : Settled [.claimed 1, .ended (.returned (.bool true)), .done 1] := by
  have hrun : run (returning (.bool true)) 2 ⟨oneJob 1, []⟩ = .ok (.bool true)
      ⟨{ oneJob 1 with store := (oneJob 1).store.done 1 0 },
        [.claimed 1, .ended (.returned (.bool true)), .done 1]⟩ := by decide +kernel
  refine (run_settled_iff (returning (.bool true)) (.returns hrun rfl)).mpr ?_
  intro e he
  simp only [List.mem_cons, List.not_mem_nil, or_false] at he
  rcases he with rfl | rfl | rfl
  · exact ⟨by decide, 1, 0, by decide, rfl⟩
  · trivial
  · trivial

/-- A handler that returns the integer 1, and a job that has the first id that is not exact. -/
theorem run_not_settled :
    (Leaves (returning (.int 1)) 2 (oneJob 1)
        [.claimed 1, .ended (.returned (.int 1)), .done 1] ∧
      ¬ Settled [.claimed 1, .ended (.returned (.int 1)), .done 1]) ∧
    Leaves (returning (.bool true)) 2 (oneJob 9007199254740993)
        [.claimed 9007199254740993, .ended (.returned (.bool true)), .done 9007199254740992] ∧
      ¬ Settled
        [.claimed 9007199254740993, .ended (.returned (.bool true)), .done 9007199254740992] := by
  have hint : run (returning (.int 1)) 2 ⟨oneJob 1, []⟩ = .ok (.bool true)
      ⟨{ oneJob 1 with store := (oneJob 1).store.done 1 0 },
        [.claimed 1, .ended (.returned (.int 1)), .done 1]⟩ := by decide +kernel
  have hlarge : run (returning (.bool true)) 2 ⟨oneJob 9007199254740993, []⟩ = .ok (.bool true)
      ⟨{ oneJob 9007199254740993 with store := (oneJob 9007199254740993).store.next "mail" 0 |>.2 },
        [.claimed 9007199254740993, .ended (.returned (.bool true)), .done 9007199254740992]⟩ := by
    decide +kernel
  refine ⟨⟨.returns hint rfl, nofun⟩, .returns hlarge rfl, fun h => ?_⟩
  cases h with
  | done hid _ => exact absurd hid (by decide)

end Jobs

end Look
