/-
What `recover` does to the results of jobs.

`recover` gives a job that has been processing for a long time to somebody else, and
the slow worker may still report.  `done` and `fail` name the job and not the attempt,
so that a late report acts on the attempt of another worker, and a late `fail` even
takes back that the job is done.  As long as no late report arrives but one that says
`done` of a job that is done already, results are kept.
-/
import Look.Jobs.Claims

namespace Look

namespace Jobs

/-- The row of the job has this status. -/
def hasStatus (s : System) (id : Nat) (status : Status) : Bool :=
  s.store.jobs.any fun j => j.id == id && j.status == status

def HasStatus (s : System) (id : Nat) (status : Status) : Prop :=
  ∃ j ∈ s.store.jobs, j.id = id ∧ j.status = status

theorem hasStatus_iff {s : System} {id : Nat} {status : Status} :
    hasStatus s id status = true ↔ HasStatus s id status := by
  simp [hasStatus, HasStatus]

/-- A worker reports on the last attempt of its job, or that a job is done which is done
already. -/
def timely (s : System) : Action → Bool
  | .done w _ =>
    match s.workers w with
    | .holding id n => n == s.attempts id || hasStatus s id .done
    | _ => true
  | .failWrite w _ =>
    match s.workers w with
    | .failing id n _ _ => n == s.attempts id
    | _ => true
  | _ => true

def Timely (s : System) (a : Action) : Prop := timely s a = true

theorem Timely.done {s : System} {w id n : Nat} {now : Int} (h : Timely s (.done w now))
    (hw : s.workers w = .holding id n) : n = s.attempts id ∨ HasStatus s id .done := by
  rw [Timely, timely, hw, Bool.or_eq_true, beq_iff_eq, hasStatus_iff] at h
  exact h

theorem Timely.failWrite {s : System} {w id n : Nat} {rc mr now : Int}
    (h : Timely s (.failWrite w now)) (hw : s.workers w = .failing id n rc mr) :
    n = s.attempts id := by
  rw [Timely, timely, hw, beq_iff_eq] at h
  exact h

/-- What the workers hold: attempts that were handed out, each to one worker; a job whose
last attempt is still held is not done. -/
structure Attempted (s : System) : Prop where
  nodup : (s.store.jobs.map Job.id).Nodup
  bound : ∀ j ∈ s.store.jobs, j.id ≤ s.store.lastId
  given : ∀ {w id n}, (s.workers w).job = some (id, n) → n ≤ s.attempts id ∧ id ≤ s.store.lastId
  single : ∀ {w w' id n}, (s.workers w).job = some (id, n) → (s.workers w').job = some (id, n) →
    w = w'
  notDone : ∀ {w id n}, (s.workers w).job = some (id, n) → n = s.attempts id →
    ¬ HasStatus s id .done

section Attempted

variable {s s' : System}

theorem Attempted.start : Attempted System.start where
  nodup := List.nodup_nil
  bound _ hj := absurd hj List.not_mem_nil
  given hw := by cases hw
  single hw := by cases hw
  notDone hw := by cases hw

/-- The status of a job is that of its row. -/
theorem HasStatus.unique (hnodup : (s.store.jobs.map Job.id).Nodup) {id : Nat} {a b : Status}
    (ha : HasStatus s id a) (hb : HasStatus s id b) : a = b := by
  obtain ⟨j, hj, hid, rfl⟩ := ha
  obtain ⟨k, hk, hkid, rfl⟩ := hb
  exact congrArg Job.status (eq_of_key hnodup hj hk (hid.trans hkid.symm))

/-- An UPDATE keeps what the workers hold if it marks as done only jobs whose last
attempt is held by none of them. -/
theorem Attempted.update (h : Attempted s) {p : Job → Bool} {f : Job → Job}
    (hf : ∀ j, (f j).id = j.id)
    (hp : ∀ w id n, (s.workers w).job = some (id, n) → n = s.attempts id → ∀ j ∈ s.store.jobs,
      j.id = id → p j = true → (f j).status ≠ .done) :
    Attempted { s with store := s.store.update p f } where
  nodup := by
    show ((updateWhere p f s.store.jobs).map Job.id).Nodup
    rw [map_key_updateWhere hf]
    exact h.nodup
  bound := by
    intro j hj
    rcases updateWhere_cases hj with ⟨hold, -⟩ | ⟨k, hk, -, rfl⟩
    · exact h.bound j hold
    · rw [hf]
      exact h.bound k hk
  given := h.given
  single := h.single
  notDone := by
    intro w id n hw hn
    rintro ⟨j, hj, hid, hdone⟩
    rcases updateWhere_cases hj with ⟨hold, -⟩ | ⟨k, hk, hpk, rfl⟩
    · exact h.notDone hw hn ⟨j, hold, hid, hdone⟩
    · exact hp w id n hw hn k hk ((hf k).symm.trans hid) hpk hdone

/-- A worker that is done, or gone. -/
theorem Attempted.release (h : Attempted s) (w : Nat) :
    Attempted { s with workers := Function.update s.workers w .idle } where
  nodup := h.nodup
  bound := h.bound
  given hw := h.given (job_update_idle hw).2
  single hw hw' := h.single (job_update_idle hw).2 (job_update_idle hw').2
  notDone hw := h.notDone (job_update_idle hw).2

/-- A report on the last attempt of a job. -/
theorem Attempted.report (h : Attempted s) {w id n : Nat}
    (hw : (s.workers w).job = some (id, n)) (hn : n = s.attempts id) {f : Job → Job}
    (hf : ∀ j, (f j).id = j.id) :
    Attempted { s with
      store := s.store.update (fun k => k.id == id) f
      workers := Function.update s.workers w .idle } := by
  refine (h.release w).update hf ?_
  intro w' id' n' hw' hn' j _ hid hp
  obtain ⟨hne, hother⟩ := job_update_idle hw'
  obtain rfl : id' = id := hid.symm.trans (by simpa using hp)
  obtain rfl : n' = n := hn'.trans hn.symm
  exact absurd (h.single hother hw) hne

theorem Attempted.push (h : Attempted s) (queue payload : String) (maxRetries delay now : Int) :
    Attempted { s with store := (s.store.push queue payload maxRetries delay now).2 } where
  nodup := nodup_push queue payload maxRetries delay now h.nodup h.bound
  bound := bound_push queue payload maxRetries delay now h.bound
  given hw := ⟨(h.given hw).1, Nat.le_succ_of_le (h.given hw).2⟩
  single := h.single
  notDone := by
    intro w id n hw hn
    rintro ⟨j, hj, hid, hdone⟩
    rcases List.mem_append.mp hj with hj | hj
    · exact h.notDone hw hn ⟨j, hj, hid, hdone⟩
    · rw [List.mem_singleton] at hj
      subst hj
      cases hdone

/-- A new attempt is one that no worker has. -/
theorem Attempted.next (h : Attempted s) {w : Nat} (queue : String) (now : Int) :
    Attempted (s.next w queue now) := by
  rcases s.next_cases w queue now with hnone | ⟨j, hj, hpending, -, heq⟩
  · rw [hnone]
    exact h
  · have hupdated := h.update (p := fun k => k.id == j.id && k.status == .pending)
      (f := fun k => { k with status := .processing, updatedAt := now }) (fun _ => rfl)
      (fun _ _ _ _ _ _ _ _ _ => nofun)
    have hattempts (id : Nat) :
        (s.handed ++ [({ j with status := Status.processing, updatedAt := now }, now)]).countP
          (fun h : Job × Int => h.1.id == id) = s.attempts id + if j.id = id then 1 else 0 :=
      attempts_snoc _ _ _ _
    have hworkers {w' id n : Nat} (hw : (Function.update s.workers w
        (.holding j.id (s.attempts j.id + 1)) w').job = some (id, n)) :
        (w' = w ∧ id = j.id ∧ n = s.attempts j.id + 1) ∨ (s.workers w').job = some (id, n) :=
      (job_update_holding hw).imp_right And.right
    have hold {w' n : Nat} (hw : (s.workers w').job = some (j.id, n)) : n ≠ s.attempts j.id + 1 :=
      Nat.ne_of_lt (Nat.lt_succ_of_le (h.given hw).1)
    rw [heq]
    refine ⟨hupdated.nodup, hupdated.bound, ?_, ?_, ?_⟩
    · intro w' id n hw
      show n ≤ (s.handed ++ [_]).countP _ ∧ _
      rw [hattempts]
      rcases hworkers hw with ⟨rfl, rfl, rfl⟩ | hw
      · rw [if_pos rfl]
        exact ⟨Nat.le_refl _, h.bound j hj⟩
      · exact ⟨Nat.le_add_right_of_le (h.given hw).1, (h.given hw).2⟩
    · intro w' w'' id n hw hw'
      rcases hworkers hw with ⟨rfl, rfl, rfl⟩ | hold1
      · rcases hworkers hw' with ⟨rfl, -, -⟩ | hold2
        · rfl
        · exact absurd rfl (hold hold2)
      · rcases hworkers hw' with ⟨rfl, rfl, rfl⟩ | hold2
        · exact absurd rfl (hold hold1)
        · exact h.single hold1 hold2
    · intro w' id n hw hn
      replace hn : n = s.attempts id + if j.id = id then 1 else 0 := hn.trans (hattempts id)
      rcases hworkers hw with ⟨rfl, rfl, rfl⟩ | hw
      · rintro ⟨k, hk, hid, hdone⟩
        rcases updateWhere_cases hk with ⟨hkold, hp⟩ | ⟨k', -, -, rfl⟩
        · obtain rfl : k = j := eq_of_key h.nodup hkold hj hid
          rw [hpending] at hdone
          cases hdone
        · cases hdone
      · by_cases hid : j.id = id
        · subst hid
          rw [if_pos rfl] at hn
          exact absurd hn (hold hw)
        · rw [if_neg hid] at hn
          exact hupdated.notDone hw hn

/-- The counters that a worker reads do not change what it holds. -/
theorem Attempted.failRead (h : Attempted s) {w id n : Nat} {rc mr : Int}
    (hw : s.workers w = .holding id n) :
    Attempted { s with workers := Function.update s.workers w (.failing id n rc mr) } := by
  have hsame {w' : Nat} :
      (Function.update s.workers w (.failing id n rc mr) w').job = (s.workers w').job :=
    job_update_same (x := .failing id n rc mr) (congrArg Worker.job hw).symm w'
  exact ⟨h.nodup, h.bound, fun hw' => h.given (hsame.symm.trans hw'),
    fun hw' hw'' => h.single (hsame.symm.trans hw') (hsame.symm.trans hw''),
    fun hw' => h.notDone (hsame.symm.trans hw')⟩

/-- Every timely step keeps what the workers hold. -/
theorem Attempted.step {a : Action} (h : Attempted s) (hs : Step s a s') (hok : Timely s a) :
    Attempted s' := by
  have hstep : Jobs.step s a = some s' := hs
  cases a with
  | push queue payload maxRetries delay now =>
    cases hstep
    exact h.push queue payload maxRetries delay now
  | next w queue now =>
    rw [Jobs.step] at hstep
    split at hstep
    · cases hstep
      exact h.next queue now
    · cases hstep
  | done w now =>
    rw [Jobs.step] at hstep
    split at hstep
    · rename_i id n hw
      cases hstep
      rcases hok.done hw with hn | hdone
      · exact h.report (congrArg Worker.job hw) hn fun _ => rfl
      · refine (h.release w).update (fun _ => rfl) ?_
        intro w' id' n' hw' hn' j hj hid hp
        obtain rfl : id' = id := hid.symm.trans (by simpa using hp)
        exact absurd hdone (h.notDone (job_update_idle hw').2 hn')
    · cases hstep
  | failRead w =>
    rw [Jobs.step] at hstep
    split at hstep
    · rename_i id n hw
      cases hstep
      exact h.failRead hw
    · cases hstep
  | failWrite w now =>
    rw [Jobs.step] at hstep
    split at hstep
    · rename_i id n rc mr hw
      cases hstep
      exact h.report (congrArg Worker.job hw) (hok.failWrite hw) fun _ => rfl
    · cases hstep
  | crash w =>
    cases hstep
    exact h.release w
  | recover queue minAge now =>
    cases hstep
    exact h.update (fun _ => rfl) fun _ _ _ _ _ _ _ _ _ h => by cases h
  | retry id now =>
    cases hstep
    exact h.update (fun _ => rfl) fun _ _ _ _ _ _ _ _ _ h => by cases h

/-! ## Results are kept -/

/-- An UPDATE that leaves rows that are done alone, or done. -/
theorem HasStatus.update_done {id : Nat} (h : HasStatus s id .done) {p : Job → Bool}
    {f : Job → Job} {workers : Nat → Worker} {handed : List (Job × Int)}
    (hf : ∀ j, (f j).id = j.id)
    (hp : ∀ j ∈ s.store.jobs, j.id = id → j.status = .done → p j = true → (f j).status = .done) :
    HasStatus ⟨s.store.update p f, workers, handed⟩ id .done := by
  obtain ⟨j, hj, hid, hdone⟩ := h
  cases hpj : p j with
  | false => exact ⟨j, mem_updateWhere_of_neg hj hpj, hid, hdone⟩
  | true =>
    exact ⟨f j, mem_updateWhere_of_pos hj hpj, (hf j).trans hid, hp j hj hid hdone hpj⟩

/-- A job that is done stays done in every timely step. -/
theorem HasStatus.step_done {a : Action} {id : Nat} (h : HasStatus s id .done)
    (hatt : Attempted s) (hs : Step s a s') (hok : Timely s a) : HasStatus s' id .done := by
  have hstep : Jobs.step s a = some s' := hs
  cases a with
  | push queue payload maxRetries delay now =>
    cases hstep
    obtain ⟨j, hj, hrow⟩ := h
    exact ⟨j, List.mem_append_left _ hj, hrow⟩
  | next w queue now =>
    rw [Jobs.step] at hstep
    split at hstep
    · cases hstep
      rcases s.next_cases w queue now with hnone | ⟨j, hj, hpending, -, heq⟩
      · rw [hnone]
        exact h
      · rw [heq]
        refine h.update_done (fun _ => rfl) ?_
        intro k _ _ hdone hp
        rw [hdone] at hp
        simp at hp
    · cases hstep
  | done w now =>
    rw [Jobs.step] at hstep
    split at hstep
    · cases hstep
      exact h.update_done (fun _ => rfl) fun _ _ _ _ _ => rfl
    · cases hstep
  | failRead w =>
    rw [Jobs.step] at hstep
    split at hstep
    · cases hstep
      exact h
    · cases hstep
  | failWrite w now =>
    rw [Jobs.step] at hstep
    split at hstep
    · rename_i id' n rc mr hw
      cases hstep
      refine h.update_done (fun _ => rfl) ?_
      intro k _ hid _ hp
      obtain rfl : id = id' := hid.symm.trans (by simpa using hp)
      exact absurd h (hatt.notDone (congrArg Worker.job hw) (hok.failWrite hw))
    · cases hstep
  | crash w =>
    cases hstep
    exact h
  | recover queue minAge now =>
    cases hstep
    refine h.update_done (fun _ => rfl) ?_
    intro k _ _ hdone hp
    rw [stuck, hdone] at hp
    simp at hp
  | retry id' now =>
    cases hstep
    refine h.update_done (fun _ => rfl) ?_
    intro k _ _ hdone hp
    rw [hdone] at hp
    simp at hp

end Attempted

/-- The statements with which a worker reports on its job. -/
def Action.ReportOf (w : Nat) : Action → Prop
  | .done w' _ => w' = w
  | .failRead w' => w' = w
  | .failWrite w' _ => w' = w
  | _ => False

/-- A late report that is timely says `done` of a job that is done. -/
theorem late_report {s s' : System} {w id n : Nat} {a : Action}
    (hw : (s.workers w).job = some (id, n)) (hlate : n ≠ s.attempts id) (ha : a.ReportOf w)
    (hok : Timely s a) (hs : Step s a s') (hatt : Attempted s) {j : Job}
    (hj : j ∈ s.store.jobs) (hid : j.id = id) :
    ∃ j' ∈ s'.store.jobs, j'.id = id ∧ j'.status = j.status ∧ j'.retryCount = j.retryCount := by
  have hstep : step s a = some s' := hs
  cases a with
  | done w' now =>
    obtain rfl : w' = w := ha
    rw [step] at hstep
    split at hstep
    · rename_i id' n' hw'
      cases hstep
      rw [hw'] at hw
      cases hw
      have hdone : j.status = .done :=
        HasStatus.unique hatt.nodup ⟨j, hj, hid, rfl⟩ ((hok.done hw').resolve_left hlate)
      exact ⟨_, mem_updateWhere_of_pos hj (by simpa using hid), hid, hdone.symm, rfl⟩
    · cases hstep
  | failRead w' =>
    rw [step] at hstep
    split at hstep
    · cases hstep
      exact ⟨j, hj, hid, rfl, rfl⟩
    · cases hstep
  | failWrite w' now =>
    obtain rfl : w' = w := ha
    rw [step] at hstep
    split at hstep
    · rename_i id' n' rc mr hw'
      rw [hw'] at hw
      cases hw
      exact absurd (hok.failWrite hw') hlate
    · cases hstep
  | push => exact ha.elim
  | next => exact ha.elim
  | crash => exact ha.elim
  | recover => exact ha.elim
  | retry => exact ha.elim

/-- In every run in which late reports only say `done` of jobs that are done: a job that
is done stays done, and the late reports change neither the status nor the retry count
of a job. -/
theorem results_kept {s : System} (h : RunWhere Step Timely System.start s) :
    (∀ id, HasStatus s id .done → ∀ s', RunWhere Step Timely s s' → HasStatus s' id .done) ∧
    ∀ w id n a s', (s.workers w).job = some (id, n) → n ≠ s.attempts id → a.ReportOf w →
      Timely s a → Step s a s' → ∀ j ∈ s.store.jobs, j.id = id →
        ∃ j' ∈ s'.store.jobs, j'.id = id ∧ j'.status = j.status ∧
          j'.retryCount = j.retryCount := by
  have hatt : Attempted s := RunWhere.keeps (I := Attempted)
    (fun _ a _ hs hok hi => hi.step (a := a) hs hok) h Attempted.start
  constructor
  · intro id hdone s' hrun
    have hkeeps : Attempted s' ∧ HasStatus s' id .done :=
      RunWhere.keeps (I := fun t => Attempted t ∧ HasStatus t id .done)
        (fun _ a _ hs hok hi => ⟨hi.1.step (a := a) hs hok, hi.2.step_done hi.1 hs hok⟩) hrun
        ⟨hatt, hdone⟩
    exact hkeeps.2
  · intro w id n a s' hw hlate ha hok hs j hj hid
    exact late_report hw hlate ha hok hs hatt hj hid

/-- A job that is taken from a slow worker, and done by another one. -/
def takenOver : List Action :=
  [.push "mail" "x" 3 0 100, .next 0 "mail" 100, .recover "mail" 0 200, .next 1 "mail" 201,
    .done 1 202]

/-- The slow worker says `done` as well. -/
theorem results_kept_twice : ∃ s s', HasStatus s 1 .done ∧ HasStatus s' 1 .done ∧
    Step s (.done 0 300) s' := by
  have hrun : (stepsWhere step timely System.start takenOver).any (fun s => hasStatus s 1 .done &&
      timely s (.done 0 300) && (step s (.done 0 300)).isSome) = true := by
    decide +kernel
  obtain ⟨s, hs, hall⟩ := (Option.any_eq_true _ _).mp hrun
  rw [Bool.and_eq_true, Bool.and_eq_true, hasStatus_iff] at hall
  obtain ⟨⟨hdone, hok⟩, hsome⟩ := hall
  obtain ⟨s', hs'⟩ := Option.isSome_iff_exists.mp hsome
  have hkept := (results_kept (runWhere_of_stepsWhere hs)).1 1 hdone s'
    (RunWhere.refl.snoc hs' hok)
  exact ⟨s, s', hdone, hkept, hs'⟩

/-- The slow worker says `fail`: the job that was done is pending again. -/
theorem result_undone : ∃ s s', Run Step System.start s ∧ HasStatus s 1 .done ∧ Run Step s s' ∧
    HasStatus s' 1 .pending ∧ ¬ HasStatus s' 1 .done := by
  have hrun : ((steps System.start takenOver).any fun s => hasStatus s 1 .done &&
      (steps s [.failRead 0, .failWrite 0 300]).any fun s' => hasStatus s' 1 .pending &&
        !hasStatus s' 1 .done) = true := by
    decide +kernel
  obtain ⟨s, hs, hall⟩ := (Option.any_eq_true _ _).mp hrun
  rw [Bool.and_eq_true, hasStatus_iff] at hall
  obtain ⟨hdone, hlate⟩ := hall
  obtain ⟨s', hs', hlate⟩ := (Option.any_eq_true _ _).mp hlate
  rw [Bool.and_eq_true, hasStatus_iff, Bool.not_eq_true'] at hlate
  refine ⟨s, s', run_of_foldlM hs, hdone, run_of_foldlM hs', hlate.1, ?_⟩
  intro h
  rw [hasStatus_iff.mpr h] at hlate
  exact absurd hlate.2 nofun

end Jobs

end Look
