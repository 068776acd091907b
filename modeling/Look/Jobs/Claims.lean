/-
A job is with one worker at a time, and its attempts are bounded.

A worker that holds a job holds a row that is processing, and nobody else holds it.
This stays so as long as `recover` takes no job that a worker still holds; it is all
that the bound on the attempts and the results of finished jobs rest on.
-/
import Mathlib.Data.Int.Order.Basic
import Look.Jobs.Store

namespace Look

namespace Jobs

/-! ## Holding a job -/

/-- Every worker that holds a job is at the last attempt of it, the row is processing
and as the worker has read it, and no other worker holds the job. -/
structure Exclusive (s : System) : Prop where
  nodup : (s.store.jobs.map Job.id).Nodup
  bound : ∀ j ∈ s.store.jobs, j.id ≤ s.store.lastId
  held : ∀ {w id n}, (s.workers w).job = some (id, n) →
    n = s.attempts id ∧ ∃ j ∈ s.store.jobs, j.id = id ∧ j.status = .processing
  counters : ∀ {w id n retryCount maxRetries},
    s.workers w = .failing id n retryCount maxRetries →
    ∃ j ∈ s.store.jobs, j.id = id ∧ j.retryCount = retryCount ∧ j.maxRetries = maxRetries
  unique : ∀ {w w' id n n'}, (s.workers w).job = some (id, n) →
    (s.workers w').job = some (id, n') → w = w'

/-- `recover` takes no job that a worker holds. -/
def Orphaned (s : System) : Action → Prop
  | .recover queue minAgeSeconds now => ∀ w id n, (s.workers w).job = some (id, n) →
      ∀ j ∈ s.store.jobs, j.id = id → stuck queue minAgeSeconds now j = false
  | _ => True

section Push

variable {t : JobStore} (queue payload : String) (maxRetries delay now : Int)

theorem nodup_push (hnodup : (t.jobs.map Job.id).Nodup) (hbound : ∀ j ∈ t.jobs, j.id ≤ t.lastId) :
    ((t.push queue payload maxRetries delay now).2.jobs.map Job.id).Nodup := by
  show ((t.jobs ++ [_]).map Job.id).Nodup
  rw [List.map_append, List.map_singleton]
  refine List.Nodup.append hnodup (List.nodup_singleton _) ?_
  intro id hid hnew
  obtain ⟨j, hj, rfl⟩ := List.mem_map.mp hid
  have hle := hbound j hj
  rw [List.mem_singleton] at hnew
  rw [hnew] at hle
  exact Nat.not_succ_le_self _ hle

theorem bound_push (hbound : ∀ j ∈ t.jobs, j.id ≤ t.lastId) :
    ∀ j ∈ (t.push queue payload maxRetries delay now).2.jobs,
      j.id ≤ (t.push queue payload maxRetries delay now).2.lastId := by
  intro j hj
  rcases List.mem_append.mp hj with hj | hj
  · exact Nat.le_succ_of_le (hbound j hj)
  · rw [List.mem_singleton] at hj
    subst hj
    exact Nat.le_refl _

end Push

section Exclusive

variable {s s' : System}

theorem Exclusive.start : Exclusive System.start where
  nodup := List.nodup_nil
  bound _ hj := absurd hj List.not_mem_nil
  held hw := by cases hw
  counters hw := by cases hw
  unique hw := by cases hw

/-- The row of a job that a worker holds. -/
theorem Exclusive.processing (h : Exclusive s) {w id n : Nat}
    (hw : (s.workers w).job = some (id, n)) {j : Job} (hj : j ∈ s.store.jobs) (hid : j.id = id) :
    j.status = .processing := by
  obtain ⟨-, k, hk, hkid, hstatus⟩ := h.held hw
  obtain rfl : k = j := eq_of_key h.nodup hk hj (hkid.trans hid.symm)
  exact hstatus

/-- An UPDATE that does not touch the jobs that are held. -/
theorem Exclusive.update (h : Exclusive s) {p : Job → Bool} {f : Job → Job}
    (hf : ∀ j, (f j).id = j.id)
    (hp : ∀ w id n, (s.workers w).job = some (id, n) → ∀ j ∈ s.store.jobs, j.id = id →
      p j = false) :
    Exclusive { s with store := s.store.update p f } where
  nodup := by
    show ((updateWhere p f s.store.jobs).map Job.id).Nodup
    rw [map_key_updateWhere hf]
    exact h.nodup
  bound := by
    intro j hj
    rcases updateWhere_cases hj with ⟨hold, -⟩ | ⟨k, hk, -, rfl⟩
    · exact h.bound j hold
    · rw [hf]
      exact h.bound k hk
  held := by
    intro w id n hw
    obtain ⟨hn, j, hj, hid, hstatus⟩ := h.held hw
    exact ⟨hn, j, mem_updateWhere_of_neg hj (hp w id n hw j hj hid), hid, hstatus⟩
  counters := by
    intro w id n rc mr hw
    obtain ⟨j, hj, hid, hcounts⟩ := h.counters hw
    have hjob : (s.workers w).job = some (id, n) := congrArg Worker.job hw
    exact ⟨j, mem_updateWhere_of_neg hj (hp w id n hjob j hj hid), hid, hcounts⟩
  unique := h.unique

/-- A worker that holds the same job afterwards. -/
theorem job_update_same {w : Nat} {x : Worker} (hx : x.job = (s.workers w).job) (w' : Nat) :
    (Function.update s.workers w x w').job = (s.workers w').job :=
  (Function.forall_update_iff s.workers fun w' x => x.job = (s.workers w').job).mpr
    ⟨hx, fun _ _ => rfl⟩ w'

theorem job_update_holding {w w' id id' n n' : Nat}
    (h : (Function.update s.workers w (.holding id' n') w').job = some (id, n)) :
    (w' = w ∧ id = id' ∧ n = n') ∨ (w' ≠ w ∧ (s.workers w').job = some (id, n)) := by
  by_cases hw : w' = w
  · subst hw
    rw [Function.update_self] at h
    cases h
    exact Or.inl ⟨rfl, rfl, rfl⟩
  · rw [Function.update_of_ne hw] at h
    exact Or.inr ⟨hw, h⟩

theorem job_update_idle {w w' : Nat} {x : Nat × Nat}
    (h : (Function.update s.workers w .idle w').job = some x) :
    w' ≠ w ∧ (s.workers w').job = some x := by
  by_cases hw : w' = w
  · subst hw
    rw [Function.update_self] at h
    cases h
  · rw [Function.update_of_ne hw] at h
    exact ⟨hw, h⟩

/-- A worker in the middle of `fail` is not the one that has just changed. -/
theorem failing_of_update {w w' id n : Nat} {rc mr : Int} {x : Worker}
    (hx : ∀ id n rc mr, x ≠ .failing id n rc mr)
    (h : Function.update s.workers w x w' = .failing id n rc mr) :
    s.workers w' = .failing id n rc mr := by
  by_cases hw : w' = w
  · subst hw
    rw [Function.update_self] at h
    exact absurd h (hx id n rc mr)
  · rw [Function.update_of_ne hw] at h
    exact h

/-- A worker that is done, or gone. -/
theorem Exclusive.release (h : Exclusive s) (w : Nat) :
    Exclusive { s with workers := Function.update s.workers w .idle } where
  nodup := h.nodup
  bound := h.bound
  held hw := h.held (job_update_idle hw).2
  counters hw := h.counters (failing_of_update (x := .idle) (fun _ _ _ _ h => nomatch h) hw)
  unique hw hw' := h.unique (job_update_idle hw).2 (job_update_idle hw').2

/-- The UPDATE of a job by the worker that holds it, which is idle afterwards. -/
theorem Exclusive.report (h : Exclusive s) {w id n : Nat}
    (hw : (s.workers w).job = some (id, n)) {f : Job → Job} (hf : ∀ j, (f j).id = j.id) :
    Exclusive { s with
      store := s.store.update (fun k => k.id == id) f
      workers := Function.update s.workers w .idle } := by
  refine (h.release w).update hf ?_
  intro w' id' n' hw' j hj hid
  obtain ⟨hne, hother⟩ := job_update_idle hw'
  rw [beq_eq_false_iff_ne]
  intro hsame
  obtain rfl : id' = id := hid.symm.trans hsame
  exact hne (h.unique hother hw)

theorem Exclusive.push (h : Exclusive s) (queue payload : String) (maxRetries delay now : Int) :
    Exclusive { s with store := (s.store.push queue payload maxRetries delay now).2 } where
  nodup := nodup_push queue payload maxRetries delay now h.nodup h.bound
  bound := bound_push queue payload maxRetries delay now h.bound
  held := by
    intro w id n hw
    obtain ⟨hn, j, hj, hrow⟩ := h.held hw
    exact ⟨hn, j, List.mem_append_left _ hj, hrow⟩
  counters := by
    intro w id n rc mr hw
    obtain ⟨j, hj, hrow⟩ := h.counters hw
    exact ⟨j, List.mem_append_left _ hj, hrow⟩
  unique := h.unique

/-- What `next` does: nothing, or a job that is due is handed out. -/
theorem System.next_cases (s : System) (w : Nat) (queue : String) (now : Int) :
    s.next w queue now = s ∨
    ∃ j ∈ s.store.jobs, j.status = .pending ∧ j.runAfter ≤ now ∧ s.next w queue now =
      { store := s.store.update (fun k => k.id == j.id && k.status == .pending)
          fun k => { k with status := .processing, updatedAt := now }
        workers := Function.update s.workers w (.holding j.id (s.attempts j.id + 1))
        handed := s.handed ++ [({ j with status := .processing, updatedAt := now }, now)] } := by
  rw [System.next, JobStore.next]
  cases hfind : s.store.jobs.find? (due queue now) with
  | none => exact Or.inl rfl
  | some j =>
    have hdue := List.find?_some hfind
    rw [due, Bool.and_eq_true, Bool.and_eq_true, beq_iff_eq, beq_iff_eq, decide_eq_true_eq] at hdue
    exact Or.inr ⟨j, List.mem_of_find?_eq_some hfind, hdue.1.2, hdue.2, rfl⟩

theorem attempts_snoc (handed : List (Job × Int)) (j : Job) (now : Int) (id : Nat) :
    (handed ++ [(j, now)]).countP (fun h => h.1.id == id) =
      handed.countP (fun h => h.1.id == id) + if j.id = id then 1 else 0 := by
  rw [List.countP_append, List.countP_singleton]
  simp only [beq_iff_eq]

/-- A job that is pending is held by nobody, so that it can be handed out. -/
theorem Exclusive.next (h : Exclusive s) {w : Nat} (hidle : s.workers w = .idle) (queue : String)
    (now : Int) : Exclusive (s.next w queue now) := by
  rcases s.next_cases w queue now with hnone | ⟨j, hj, hpending, -, heq⟩
  · rw [hnone]
    exact h
  · have hfree {w' id n : Nat} (hw : (s.workers w').job = some (id, n)) : id ≠ j.id := by
      intro hid
      have hstatus := h.processing hw hj hid.symm
      exact absurd (hpending.symm.trans hstatus) nofun
    have hupdated := h.update (p := fun k => k.id == j.id && k.status == .pending)
      (f := fun k => { k with status := .processing, updatedAt := now }) (fun _ => rfl) (by
        intro w' id n hw k hk hid
        have hne : k.id ≠ j.id := hid ▸ hfree hw
        rw [beq_eq_false_iff_ne.mpr hne, Bool.false_and])
    have hrow : { j with status := Status.processing, updatedAt := now } ∈
        updateWhere (fun k => k.id == j.id && k.status == .pending)
          (fun k => { k with status := .processing, updatedAt := now }) s.store.jobs :=
      mem_updateWhere_of_pos (p := fun k => k.id == j.id && k.status == .pending)
        (f := fun k => { k with status := .processing, updatedAt := now }) hj (by simp [hpending])
    -- The workers that held a job before are not the one that gets this job.
    have hworkers {w' id n : Nat} (hw : (Function.update s.workers w
        (.holding j.id (s.attempts j.id + 1)) w').job = some (id, n)) :
        (w' = w ∧ id = j.id ∧ n = s.attempts j.id + 1) ∨
        (w' ≠ w ∧ id ≠ j.id ∧ (s.workers w').job = some (id, n)) :=
      (job_update_holding hw).imp_right fun ⟨hne, hw⟩ => ⟨hne, hfree hw, hw⟩
    rw [heq]
    refine ⟨hupdated.nodup, hupdated.bound, ?_, ?_, ?_⟩
    · intro w' id n hw
      rcases hworkers hw with ⟨rfl, rfl, rfl⟩ | ⟨-, hid, hw⟩
      · refine ⟨?_, _, hrow, rfl, rfl⟩
        show _ = (s.handed ++ [_]).countP _
        rw [attempts_snoc, if_pos rfl]
        rfl
      · obtain ⟨hn, hjob⟩ := hupdated.held hw
        refine ⟨?_, hjob⟩
        show _ = (s.handed ++ [_]).countP _
        rw [attempts_snoc, if_neg hid.symm]
        exact hn
    · intro w' id n rc mr hw
      exact hupdated.counters (failing_of_update (x := .holding j.id (s.attempts j.id + 1))
        (fun _ _ _ _ h => nomatch h) hw)
    · intro w' w'' id n n' hw hw'
      rcases hworkers hw with ⟨rfl, rfl, -⟩ | ⟨-, hid, hw⟩
      · rcases hworkers hw' with ⟨rfl, -, -⟩ | ⟨-, hid, -⟩
        · rfl
        · exact absurd rfl hid
      · rcases hworkers hw' with ⟨-, rfl, -⟩ | ⟨-, -, hw'⟩
        · exact absurd rfl hid
        · exact h.unique hw hw'

/-- The counters that a worker reads are those of the row. -/
theorem Exclusive.failRead (h : Exclusive s) {w id n : Nat} (hw : s.workers w = .holding id n) :
    Exclusive { s with
      workers := Function.update s.workers w
        (.failing id n (s.store.failRead id).1 (s.store.failRead id).2) } := by
  have hjob : (s.workers w).job = some (id, n) := congrArg Worker.job hw
  have hsame {w' : Nat} : (Function.update s.workers w
      (.failing id n (s.store.failRead id).1 (s.store.failRead id).2) w').job =
        (s.workers w').job :=
    job_update_same (x := .failing id n _ _) hjob.symm w'
  refine ⟨h.nodup, h.bound, fun hw' => h.held (hsame.symm.trans hw'), ?_,
    fun hw' hw'' => h.unique (hsame.symm.trans hw') (hsame.symm.trans hw'')⟩
  intro w' id' n' rc mr hw'
  by_cases hne : w' = w
  · subst hne
    obtain ⟨-, j, hj, hid, -⟩ := h.held hjob
    have hfind : ∃ k, s.store.jobs.find? (fun k => k.id == id) = some k ∧ k ∈ s.store.jobs ∧
        k.id = id := by
      cases hf : s.store.jobs.find? (fun k => k.id == id) with
      | none => exact absurd (List.find?_eq_none.mp hf j hj) (by simp [hid])
      | some k =>
        exact ⟨k, rfl, List.mem_of_find?_eq_some hf, by simpa using List.find?_some hf⟩
    obtain ⟨k, hk, hmem, hkid⟩ := hfind
    have hw' : Worker.failing id n (s.store.failRead id).1 (s.store.failRead id).2 =
        .failing id' n' rc mr := (Function.update_self ..).symm.trans hw'
    rw [JobStore.failRead, hk] at hw'
    cases hw'
    exact ⟨k, hmem, hkid, rfl, rfl⟩
  · exact h.counters ((Function.update_of_ne hne _ _).symm.trans hw')

/-- Every step keeps this, if `recover` takes no job that is held. -/
theorem Exclusive.step {a : Action} (h : Exclusive s) (hs : Step s a s') (hok : Orphaned s a) :
    Exclusive s' := by
  have hstep : Jobs.step s a = some s' := hs
  cases a with
  | push queue payload maxRetries delay now =>
    cases hstep
    exact h.push queue payload maxRetries delay now
  | next w queue now =>
    rw [Jobs.step] at hstep
    split at hstep
    · rename_i hidle
      cases hstep
      exact h.next hidle queue now
    · cases hstep
  | done w now =>
    rw [Jobs.step] at hstep
    split at hstep
    · rename_i id n hw
      cases hstep
      exact h.report (congrArg Worker.job hw) fun _ => rfl
    · cases hstep
  | failRead w =>
    rw [Jobs.step] at hstep
    split at hstep
    · rename_i id n hw
      cases hstep
      exact h.failRead hw
    · cases hstep
  | failWrite w now =>
    rw [Jobs.step] at hstep
    split at hstep
    · rename_i id n rc mr hw
      cases hstep
      exact h.report (congrArg Worker.job hw) fun _ => rfl
    · cases hstep
  | crash w =>
    cases hstep
    exact h.release w
  | recover queue minAge now =>
    cases hstep
    exact h.update (fun _ => rfl) hok
  | retry id now =>
    cases hstep
    refine h.update (fun _ => rfl) ?_
    intro w id' n hw j hj hid
    rw [h.processing hw hj hid]
    exact Bool.and_false _

end Exclusive

/-! ## Counting the attempts -/

/-- The steps of workers and of those who push jobs. -/
def Action.OfWorkers : Action → Prop
  | .recover _ _ _ => False
  | .retry _ _ => False
  | _ => True

/-- The attempts that a job can have had, in each state. -/
def Within (attempts : Int) (j : Job) : Prop :=
  match j.status with
  | .pending => attempts = j.retryCount ∧ 0 ≤ attempts ∧ (attempts = 0 ∨ attempts < j.maxRetries)
  | .processing => attempts = j.retryCount + 1 ∧ 0 ≤ j.retryCount ∧
      (j.retryCount = 0 ∨ j.retryCount < j.maxRetries)
  | .done => attempts ≤ max 1 j.maxRetries
  | .failed => attempts ≤ max 1 j.maxRetries

theorem Within.le {attempts : Int} {j : Job} (h : Within attempts j) :
    attempts ≤ max 1 j.maxRetries := by
  rw [Within] at h
  cases hstatus : j.status with
  | pending =>
    rw [hstatus] at h
    dsimp only at h
    omega
  | processing =>
    rw [hstatus] at h
    dsimp only at h
    omega
  | done =>
    rw [hstatus] at h
    exact h
  | failed =>
    rw [hstatus] at h
    exact h

/-- Every job has had as many attempts as its row says, and was handed out when it was
due. -/
structure Counted (s : System) : Prop where
  within : ∀ j ∈ s.store.jobs, Within (s.attempts j.id) j
  fresh : ∀ id, s.store.lastId < id → s.attempts id = 0
  due : ∀ h ∈ s.handed, h.1.runAfter ≤ h.2

section Counted

variable {s s' : System}

theorem Counted.start : Counted System.start where
  within _ hj := absurd hj List.not_mem_nil
  fresh _ _ := rfl
  due _ hh := absurd hh List.not_mem_nil

theorem Counted.push (h : Counted s) (queue payload : String) (maxRetries delay now : Int) :
    Counted { s with store := (s.store.push queue payload maxRetries delay now).2 } where
  within := by
    intro j hj
    rcases List.mem_append.mp hj with hj | hj
    · exact h.within j hj
    · rw [List.mem_singleton] at hj
      subst hj
      have hzero : s.attempts (s.store.lastId + 1) = 0 := h.fresh _ (Nat.lt_succ_self _)
      show Within (s.attempts (s.store.lastId + 1) : Nat) _
      rw [hzero]
      exact ⟨rfl, le_refl 0, Or.inl rfl⟩
  fresh id hid := h.fresh id (Nat.lt_of_succ_lt hid)
  due := h.due

/-- A report about a job that is processing, by an UPDATE that keeps the bound. -/
theorem Counted.report (h : Counted s) (hex : Exclusive s) {w id n : Nat}
    (hw : (s.workers w).job = some (id, n)) {f : Job → Job} (hf : ∀ j, (f j).id = j.id)
    (hwithin : ∀ j ∈ s.store.jobs, j.id = id → Within (j.retryCount + 1) j →
      0 ≤ j.retryCount → j.status = .processing → Within (j.retryCount + 1) (f j)) :
    Counted { s with
      store := s.store.update (fun k => k.id == id) f
      workers := Function.update s.workers w .idle } where
  within := by
    intro j hj
    rcases updateWhere_cases hj with ⟨hold, -⟩ | ⟨k, hk, hid, rfl⟩
    · exact h.within j hold
    · have hid : k.id = id := by simpa using hid
      have hstatus := hex.processing hw hk hid
      have hk' := h.within k hk
      have hcount : (s.attempts k.id : Int) = k.retryCount + 1 ∧ 0 ≤ k.retryCount := by
        rw [Within, hstatus] at hk'
        exact ⟨hk'.1, hk'.2.1⟩
      show Within (s.attempts (f k).id : Nat) (f k)
      rw [hf, hcount.1]
      rw [hcount.1] at hk'
      exact hwithin k hk hid hk' hcount.2 hstatus
  fresh := h.fresh
  due := h.due

theorem Counted.next (h : Counted s) (hex : Exclusive s) (w : Nat) (queue : String) (now : Int) :
    Counted (s.next w queue now) := by
  rcases s.next_cases w queue now with hnone | ⟨j, hj, hpending, hdue, heq⟩
  · rw [hnone]
    exact h
  · rw [heq]
    refine ⟨?_, ?_, ?_⟩
    · intro k hk
      show Within ((s.handed ++ [_]).countP _ : Nat) k
      rw [attempts_snoc]
      rcases updateWhere_cases hk with ⟨hold, hp⟩ | ⟨k', hk', hp, rfl⟩
      · have hne : j.id ≠ k.id := by
          intro hid
          obtain rfl : j = k := eq_of_key hex.nodup hj hold hid
          rw [hpending] at hp
          simp at hp
        rw [if_neg hne]
        exact h.within k hold
      · obtain rfl : k' = j := eq_of_key hex.nodup hk' hj (by simp at hp; exact hp.1)
        have hcount := h.within k' hj
        rw [Within, hpending] at hcount
        obtain ⟨heq, hnonneg, hbound⟩ := hcount
        rw [if_pos rfl]
        refine ⟨?_, heq ▸ hnonneg, heq ▸ hbound⟩
        rw [Int.natCast_add]
        exact congrArg (· + 1) heq
    · intro id hid
      show (s.handed ++ [_]).countP _ = 0
      have hne : j.id ≠ id := Nat.ne_of_lt (Nat.lt_of_le_of_lt (hex.bound j hj) hid)
      rw [attempts_snoc, if_neg hne]
      exact h.fresh id hid
    · intro x hx
      rcases List.mem_append.mp hx with hx | hx
      · exact h.due x hx
      · rw [List.mem_singleton] at hx
        subst hx
        exact hdue

/-- Every step of workers and pushers keeps the counts. -/
theorem Counted.step {a : Action} (h : Counted s) (hex : Exclusive s) (hs : Step s a s')
    (ha : a.OfWorkers) : Counted s' := by
  have hstep : Jobs.step s a = some s' := hs
  cases a with
  | push queue payload maxRetries delay now =>
    cases hstep
    exact h.push queue payload maxRetries delay now
  | next w queue now =>
    rw [Jobs.step] at hstep
    split at hstep
    · cases hstep
      exact h.next hex w queue now
    · cases hstep
  | done w now =>
    rw [Jobs.step] at hstep
    split at hstep
    · rename_i id n hw
      cases hstep
      refine h.report hex (congrArg Worker.job hw) (fun _ => rfl) ?_
      intro j _ _ hwithin _ _
      exact hwithin.le
    · cases hstep
  | failRead w =>
    rw [Jobs.step] at hstep
    split at hstep
    · cases hstep
      exact ⟨h.within, h.fresh, h.due⟩
    · cases hstep
  | failWrite w now =>
    rw [Jobs.step] at hstep
    split at hstep
    · rename_i id n rc mr hw
      cases hstep
      refine h.report hex (congrArg Worker.job hw) (fun _ => rfl) ?_
      intro j hj hid hwithin hnonneg hstatus
      obtain ⟨k, hk, hkid, rfl, rfl⟩ := hex.counters hw
      obtain rfl : k = j := eq_of_key hex.nodup hk hj (hkid.trans hid.symm)
      by_cases hlast : k.maxRetries ≤ k.retryCount + 1
      · rw [Within, if_pos hlast]
        exact hwithin.le
      · rw [Within, if_neg hlast]
        exact ⟨rfl, by omega, Or.inr (Int.not_le.mp hlast)⟩
    · cases hstep
  | crash w =>
    cases hstep
    exact ⟨h.within, h.fresh, h.due⟩
  | recover => exact ha.elim
  | retry => exact ha.elim

/-! ## Finished jobs -/

/-- The job is done or has failed for good. -/
def Finished (s : System) (id : Nat) : Prop :=
  ∃ j ∈ s.store.jobs, j.id = id ∧ (j.status = .done ∨ j.status = .failed)

/-- A job that is finished is held by nobody. -/
theorem Finished.not_held {id : Nat} (h : Finished s id) (hex : Exclusive s) {w n : Nat}
    (hw : (s.workers w).job = some (id, n)) : False := by
  obtain ⟨j, hj, hid, hstatus⟩ := h
  have hprocessing := hex.processing hw hj hid
  rw [hprocessing] at hstatus
  rcases hstatus with hstatus | hstatus
  · cases hstatus
  · cases hstatus

/-- An UPDATE of other rows. -/
theorem Finished.update {id : Nat} (h : Finished s id) {p : Job → Bool} {f : Job → Job}
    {workers : Nat → Worker} {handed : List (Job × Int)}
    (hp : ∀ j ∈ s.store.jobs, j.id = id → j.status = .done ∨ j.status = .failed → p j = false) :
    Finished ⟨s.store.update p f, workers, handed⟩ id := by
  obtain ⟨j, hj, hid, hstatus⟩ := h
  exact ⟨j, mem_updateWhere_of_neg hj (hp j hj hid hstatus), hid, hstatus⟩

/-- The report of a worker is about a job that it holds, and so not about this one. -/
theorem Finished.report {id : Nat} (h : Finished s id) (hex : Exclusive s) {w id' n : Nat}
    (hw : (s.workers w).job = some (id', n)) {f : Job → Job} {workers : Nat → Worker} :
    Finished ⟨s.store.update (fun k => k.id == id') f, workers, s.handed⟩ id := by
  refine h.update ?_
  intro j _ hid _
  rw [beq_eq_false_iff_ne]
  intro hsame
  obtain rfl : id = id' := hid.symm.trans hsame
  exact h.not_held hex hw

/-- A job that is finished stays so, and is not handed out again. -/
theorem Finished.step {a : Action} {id : Nat} (h : Finished s id) (hex : Exclusive s)
    (hs : Step s a s') (ha : a.OfWorkers) : Finished s' id ∧ s'.attempts id = s.attempts id := by
  have hstep : Jobs.step s a = some s' := hs
  cases a with
  | push queue payload maxRetries delay now =>
    cases hstep
    obtain ⟨j, hj, hrow⟩ := h
    exact ⟨⟨j, List.mem_append_left _ hj, hrow⟩, rfl⟩
  | next w queue now =>
    rw [Jobs.step] at hstep
    split at hstep
    · cases hstep
      rcases s.next_cases w queue now with hnone | ⟨j, hj, hpending, -, heq⟩
      · rw [hnone]
        exact ⟨h, rfl⟩
      · have hne : j.id ≠ id := by
          obtain ⟨k, hk, rfl, hstatus⟩ := h
          intro hid
          obtain rfl : j = k := eq_of_key hex.nodup hj hk hid
          rw [hpending] at hstatus
          rcases hstatus with hstatus | hstatus
          · cases hstatus
          · cases hstatus
        rw [heq]
        constructor
        · refine h.update ?_
          intro k _ hid _
          rw [hid, beq_eq_false_iff_ne.mpr hne.symm, Bool.false_and]
        · show (s.handed ++ [_]).countP _ = _
          rw [attempts_snoc, if_neg hne]
          rfl
    · cases hstep
  | done w now =>
    rw [Jobs.step] at hstep
    split at hstep
    · rename_i id' n hw
      cases hstep
      exact ⟨h.report hex (congrArg Worker.job hw), rfl⟩
    · cases hstep
  | failRead w =>
    rw [Jobs.step] at hstep
    split at hstep
    · cases hstep
      exact ⟨h, rfl⟩
    · cases hstep
  | failWrite w now =>
    rw [Jobs.step] at hstep
    split at hstep
    · rename_i id' n rc mr hw
      cases hstep
      exact ⟨h.report hex (congrArg Worker.job hw), rfl⟩
    · cases hstep
  | crash w =>
    cases hstep
    exact ⟨h, rfl⟩
  | recover => exact ha.elim
  | retry => exact ha.elim

end Counted

/-! ## Runs of workers -/

/-- A run of workers and pushers, in any order. -/
def Works : System → System → Prop := RunWhere Step fun _ a => a.OfWorkers

theorem Action.OfWorkers.orphaned {s : System} {a : Action} (h : a.OfWorkers) : Orphaned s a := by
  cases a with
  | recover => exact h.elim
  | _ => trivial

theorem Works.keeps {s s' : System} (h : Works s s') (hs : Exclusive s ∧ Counted s) :
    Exclusive s' ∧ Counted s' :=
  RunWhere.keeps (I := fun s => Exclusive s ∧ Counted s)
    (fun _ a _ hs ha hi => ⟨hi.1.step (a := a) hs ha.orphaned, hi.2.step hi.1 hs ha⟩) h hs

/-- In every run of workers: a job is held by at most one of them; it is handed out only
when it is due, and at most as often as its limit allows; and once it is done or has
failed it is not handed out any more. -/
theorem works_claims {s : System} (h : Works System.start s) :
    (∀ w w' id n n', (s.workers w).job = some (id, n) → (s.workers w').job = some (id, n') →
      w = w') ∧
    (∀ x ∈ s.handed, x.1.runAfter ≤ x.2) ∧
    (∀ j ∈ s.store.jobs, (s.attempts j.id : Int) ≤ max 1 j.maxRetries) ∧
    ∀ j ∈ s.store.jobs, j.status = .done ∨ j.status = .failed → ∀ s', Works s s' →
      s'.attempts j.id = s.attempts j.id := by
  obtain ⟨hex, hcounted⟩ := h.keeps ⟨Exclusive.start, Counted.start⟩
  refine ⟨fun w w' id n n' hw hw' => hex.unique hw hw', hcounted.due,
    fun j hj => (hcounted.within j hj).le, ?_⟩
  intro j hj hstatus s' hrun
  have hkeeps : (Exclusive s' ∧ Finished s' j.id) ∧ s'.attempts j.id = s.attempts j.id :=
    RunWhere.keeps
      (I := fun t => (Exclusive t ∧ Finished t j.id) ∧ t.attempts j.id = s.attempts j.id)
      (fun t a t' hs ha hi => by
        obtain ⟨hfin, hatt⟩ := hi.1.2.step hi.1.1 hs ha
        exact ⟨⟨hi.1.1.step (a := a) hs ha.orphaned, hfin⟩, hatt.trans hi.2⟩)
      hrun ⟨⟨hex, j, hj, rfl, hstatus⟩, rfl⟩
  exact hkeeps.2

theorem works_of_steps {s s' : System} {actions : List Action}
    (ha : ∀ a ∈ actions, a.OfWorkers) (h : steps s actions = some s') : Works s s' := by
  induction actions generalizing s with
  | nil =>
    cases h
    exact .refl
  | cons a actions ih =>
    rw [steps, List.foldlM_cons, Option.bind_eq_bind, Option.bind_eq_some_iff] at h
    obtain ⟨s1, hs1, hrest⟩ := h
    exact Relation.ReflTransGen.head ⟨a, hs1, ha a List.mem_cons_self⟩
      (ih (fun a h => ha a (List.mem_cons_of_mem _ h)) hrest)

/-- A job with two attempts: the first worker fails, the second one is done. -/
def twoAttempts : List Action :=
  [.push "mail" "x" 2 5 100, .next 0 "mail" 104, .next 0 "mail" 105, .next 1 "mail" 105,
    .failRead 0, .failWrite 0 106, .next 1 "mail" 107, .done 1 108, .next 0 "mail" 109]

theorem works_claims_twoAttempts : ∃ s, Works System.start s ∧
    s.store.jobs.map (fun j => (j.status, j.maxRetries)) = [(.done, 2)] ∧ s.attempts 1 = 2 ∧
    (∀ x ∈ s.handed, x.1.runAfter ≤ x.2) ∧
    ∀ j ∈ s.store.jobs, (s.attempts j.id : Int) ≤ max 1 j.maxRetries := by
  have hrun : (steps System.start twoAttempts).map (fun s =>
      (s.store.jobs.map (fun j => (j.status, j.maxRetries)), s.attempts 1)) =
      some ([(.done, 2)], 2) := by
    decide +kernel
  obtain ⟨s, hs, heq⟩ := Option.map_eq_some_iff.mp hrun
  have hworks : Works System.start s := by
    refine works_of_steps ?_ hs
    intro a ha
    simp only [twoAttempts, List.mem_cons, List.not_mem_nil, or_false] at ha
    rcases ha with rfl | rfl | rfl | rfl | rfl | rfl | rfl | rfl | rfl <;> trivial
  obtain ⟨-, hdue, hbound, -⟩ := works_claims hworks
  exact ⟨s, hworks, congrArg Prod.fst heq, congrArg Prod.snd heq, hdue, hbound⟩

end Jobs

end Look
