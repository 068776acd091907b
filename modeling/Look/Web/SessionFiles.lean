/-
Session files and their garbage collection: `session_file_read`, `session_file_write` and
`session_gc_sweep`, by any number of processes in one directory.

A step is one operation on the directory.  A reader and a sweep look at the age of the file
that has a name and delete by that name, and a writer gives the name to another file in
between: then the session that was just written is gone.  Where the name still has the file
that was looked at, only what is expired is deleted (`survives_of_run`).

The files are made by `mkstemp`, so they are regular files of the user, which `fstat` checks.
-/
import Mathlib.Data.Int.Order.Basic
import Mathlib.Logic.Function.Basic
import Look.Lib.Reach

namespace Look

namespace SessionFiles

inductive Name (S : Type) where
  /-- `look_sess_<sid>`. -/
  | session (sid : S)
  /-- `look_sess_<sid>.XXXXXX`. -/
  | temp (sid : S) (suffix : Nat)
deriving DecidableEq

structure File where
  inode : Nat
  /-- `st_mtime`. -/
  mtime : Int
  blob : List UInt8
deriving DecidableEq

/-- Where a process is. -/
inductive Phase (S : Type) where
  | idle
  /-- It has opened the file of the session, and knows its age. -/
  | opened (sid : S) (file : File)
  /-- The file that it has opened is expired. -/
  | expired (sid : S) (file : File)
  /-- The new text is in a file of its own. -/
  | written (sid : S) (suffix : Nat)
  /-- It goes through the directory, and it was `now` when it began. -/
  | sweeping (now : Int)
  /-- The file that has this name is too old. -/
  | doomed (now : Int) (name : Name S) (file : File)
deriving DecidableEq

structure State (P S : Type) where
  clock : Int
  nextInode : Nat
  dir : Name S → Option File
  phase : P → Phase S
  /-- What `session_file_read` has returned last. -/
  result : P → List UInt8
  /-- When the last `session_file_write` of a session was completed. -/
  completed : S → Option Int

def State.start {P S : Type} (clock : Int) : State P S where
  clock := clock
  nextInode := 0
  dir _ := none
  phase _ := .idle
  result _ := []
  completed _ := none

inductive Action (P S : Type) where
  | tick (now : Int)
  /-- `open` and `fstat`. -/
  | openFile (p : P) (sid : S)
  /-- The age of the file is looked at, and the file is read if it is not expired. -/
  | readFile (p : P)
  | unlink (p : P)
  /-- `mkstemp` and `write`. -/
  | mkstemp (p : P) (sid : S) (suffix : Nat) (blob : List UInt8)
  | rename (p : P)
  | sweep (p : P)
  | fstatat (p : P) (name : Name S)
  | unlinkat (p : P)
  | endSweep (p : P)
deriving DecidableEq

/-- How old a file may become. -/
def maxAge {S : Type} (ttl : Int) : Name S → Int
  | .session _ => ttl
  | .temp _ _ => if 3600 < ttl then ttl else 3600

section Step

variable {P S : Type} [DecidableEq P] [DecidableEq S]

namespace State

variable (s : State P S)

def setPhase (p : P) (phase : Phase S) : State P S :=
  { s with phase := Function.update s.phase p phase }

def setFile (name : Name S) (file : Option File) : State P S :=
  { s with dir := Function.update s.dir name file }

def returns (p : P) (blob : List UInt8) : State P S :=
  { s.setPhase p .idle with result := Function.update s.result p blob }

end State

/-- One step; nothing when it cannot happen. -/
def step (ttl : Int) (s : State P S) : Action P S → Option (State P S)
  | .tick now => if s.clock ≤ now then some { s with clock := now } else none
  | .openFile p sid =>
    if s.phase p = .idle then
      match s.dir (.session sid) with
      | none => some (s.returns p [])
      | some file => some (s.setPhase p (.opened sid file))
    else none
  | .readFile p =>
    match s.phase p with
    | .opened sid file =>
      if 0 < ttl ∧ ttl < s.clock - file.mtime then some (s.setPhase p (.expired sid file))
      else some (s.returns p file.blob)
    | _ => none
  | .unlink p =>
    match s.phase p with
    | .expired sid _ => some ((s.setFile (.session sid) none).returns p [])
    | _ => none
  | .mkstemp p sid suffix blob =>
    if s.phase p = .idle ∧ s.dir (.temp sid suffix) = none then
      some { (s.setFile (.temp sid suffix) (some ⟨s.nextInode, s.clock, blob⟩)).setPhase p
          (.written sid suffix) with
        nextInode := s.nextInode + 1 }
    else none
  | .rename p =>
    match s.phase p with
    | .written sid suffix =>
      match s.dir (.temp sid suffix) with
      -- the file was swept away, and the write fails
      | none => some (s.setPhase p .idle)
      | some file =>
        some { ((s.setFile (.temp sid suffix) none).setFile (.session sid)
            (some file)).setPhase p .idle with
          completed := Function.update s.completed sid (some s.clock) }
    | _ => none
  | .sweep p => if s.phase p = .idle then some (s.setPhase p (.sweeping s.clock)) else none
  | .fstatat p name =>
    match s.phase p, s.dir name with
    | .sweeping now, some file =>
      if maxAge ttl name < now - file.mtime then some (s.setPhase p (.doomed now name file))
      else some s
    | _, _ => none
  | .unlinkat p =>
    match s.phase p with
    | .doomed now name _ => some ((s.setFile name none).setPhase p (.sweeping now))
    | _ => none
  | .endSweep p =>
    match s.phase p with
    | .sweeping _ => some (s.setPhase p .idle)
    | _ => none

def Step (ttl : Int) (s : State P S) (a : Action P S) (s' : State P S) : Prop :=
  step ttl s a = some s'

end Step

variable {P S : Type}

/-- A session that was written in the last `ttl` seconds is there. -/
def Survives (ttl : Int) (s : State P S) : Prop :=
  ∀ sid now, s.completed sid = some now → s.clock - now ≤ ttl → (s.dir (.session sid)).isSome = true

/-- What is deleted by its name is the file that was looked at, and a file gets its name in the
second in which it was written. -/
def careful (s : State P S) : Action P S → Bool
  | .unlink p =>
    match s.phase p with
    | .expired sid file => (s.dir (.session sid)).all (· == file)
    | _ => true
  | .unlinkat p =>
    match s.phase p with
    | .doomed _ name file => (s.dir name).all (· == file)
    | _ => true
  | .rename p =>
    match s.phase p with
    | .written sid suffix => (s.dir (.temp sid suffix)).all fun file => file.mtime == s.clock
    | _ => true
  | _ => true

/-! ## What a careful step keeps -/

structure Kept (ttl : Int) (s : State P S) : Prop where
  gone : ∀ {sid now}, s.completed sid = some now → s.dir (.session sid) = none →
    ttl < s.clock - now
  age : ∀ {sid file}, s.dir (.session sid) = some file → s.completed sid = some file.mtime
  expired : ∀ {p sid file}, s.phase p = .expired sid file → ttl < s.clock - file.mtime
  sweeping : ∀ {p now}, s.phase p = .sweeping now → now ≤ s.clock
  doomed : ∀ {p now name file}, s.phase p = .doomed now name file → now ≤ s.clock ∧
    ∀ sid, name = .session sid → ttl < s.clock - file.mtime

section Kept

variable {ttl : Int} {s s' : State P S} {p : P}

theorem Kept.survives (h : Kept ttl s) : Survives ttl s := by
  intro sid now hcompleted hage
  cases hdir : s.dir (.session sid) with
  | some file => rfl
  | none => exact absurd hage (not_le.mpr (h.gone hcompleted hdir))

theorem start_kept {clock : Int} : Kept ttl (State.start clock : State P S) where
  gone := nofun
  age := nofun
  expired := nofun
  sweeping := nofun
  doomed := nofun

theorem Kept.tick (h : Kept ttl s) {now : Int} (hnow : s.clock ≤ now) :
    Kept ttl { s with clock := now } where
  gone hcompleted hdir := lt_of_lt_of_le (h.gone hcompleted hdir) (Int.sub_le_sub_right hnow _)
  age := h.age
  expired hp := lt_of_lt_of_le (h.expired hp) (Int.sub_le_sub_right hnow _)
  sweeping hp := le_trans (h.sweeping hp) hnow
  doomed hp := by
    obtain ⟨hle, hold⟩ := h.doomed hp
    exact ⟨le_trans hle hnow, fun sid hname =>
      lt_of_lt_of_le (hold sid hname) (Int.sub_le_sub_right hnow _)⟩

/-- What a process knows of the files that it has looked at. -/
def Phase.Knows (ttl clock : Int) : Phase S → Prop
  | .expired _ file => ttl < clock - file.mtime
  | .sweeping now => now ≤ clock
  | .doomed now name file => now ≤ clock ∧ ∀ sid, name = .session sid → ttl < clock - file.mtime
  | _ => True

variable [DecidableEq P]

/-- A process has looked at a file, and the directory is as it was. -/
theorem Kept.setPhase (h : Kept ttl s) {phase : Phase S}
    (hphase : s'.phase = Function.update s.phase p phase) (hknows : phase.Knows ttl s.clock)
    (hclock : s'.clock = s.clock)
    (hgone : ∀ {sid now}, s'.completed sid = some now → s'.dir (.session sid) = none →
      ttl < s.clock - now)
    (hage : ∀ {sid file}, s'.dir (.session sid) = some file →
      s'.completed sid = some file.mtime) : Kept ttl s' := by
  have hall : ∀ q, (s'.phase q).Knows ttl s.clock := by
    rw [hphase]
    refine (Function.forall_update_iff s.phase fun _ phase => phase.Knows ttl s.clock).mpr
      ⟨hknows, fun q _ => ?_⟩
    cases hq : s.phase q with
    | expired sid file => exact h.expired hq
    | sweeping now => exact h.sweeping hq
    | doomed now name file => exact h.doomed hq
    | _ => exact trivial
  refine ⟨fun hcompleted hdir => hclock ▸ hgone hcompleted hdir, hage, ?_, ?_, ?_⟩ <;> rw [hclock]
  · intro q sid file hq
    have hknown := hall q
    rw [hq] at hknown
    exact hknown
  · intro q now hq
    have hknown := hall q
    rw [hq] at hknown
    exact hknown
  · intro q now name file hq
    have hknown := hall q
    rw [hq] at hknown
    exact hknown

variable [DecidableEq S]

/-- A file that is written does not touch the sessions. -/
theorem update_temp (dir : Name S → Option File) (sid sid' : S) (suffix : Nat)
    (file : Option File) : Function.update dir (.temp sid suffix) file (.session sid') =
      dir (.session sid') := by
  have hne : Name.session sid' ≠ .temp sid suffix := nofun
  exact Function.update_of_ne hne ..

/-- A name loses the file that was found to be too old. -/
theorem Kept.delete (h : Kept ttl s) {name : Name S} {file : File} {phase : Phase S}
    (hphase : s'.phase = Function.update s.phase p phase) (hknows : phase.Knows ttl s.clock)
    (hclock : s'.clock = s.clock) (hcompleted : s'.completed = s.completed)
    (hdir : s'.dir = Function.update s.dir name none)
    (hold : ∀ sid, name = .session sid → ttl < s.clock - file.mtime)
    (hsame : (s.dir name).all (· == file) = true) : Kept ttl s' := by
  refine h.setPhase hphase hknows hclock ?_ ?_
  · intro sid now hlast hnone
    rw [hcompleted] at hlast
    rw [hdir] at hnone
    by_cases hname : Name.session sid = name
    · subst hname
      cases hfile : s.dir (.session sid) with
      | none => exact h.gone hlast hfile
      | some file' =>
        rw [hfile, Option.all_some, beq_iff_eq] at hsame
        subst hsame
        have hnow : now = file'.mtime := Option.some.inj (hlast.symm.trans (h.age hfile))
        rw [hnow]
        exact hold sid rfl
    · rw [Function.update_of_ne hname] at hnone
      exact h.gone hlast hnone
  · intro sid file' hfile
    rw [hdir] at hfile
    rw [hcompleted]
    by_cases hname : Name.session sid = name
    · subst hname
      rw [Function.update_self] at hfile
      cases hfile
    · rw [Function.update_of_ne hname] at hfile
      exact h.age hfile

theorem Kept.step {a : Action P S} (h : Kept ttl s) (hs : Step ttl s a s')
    (hok : careful s a = true) : Kept ttl s' := by
  rw [Step] at hs
  cases a with
  | tick now =>
    rw [SessionFiles.step] at hs
    split at hs
    · rename_i hnow
      cases hs
      exact h.tick hnow
    · cases hs
  | openFile p sid =>
    rw [SessionFiles.step] at hs
    split at hs
    · split at hs
      · cases hs
        exact h.setPhase rfl trivial rfl h.gone h.age
      · cases hs
        exact h.setPhase rfl trivial rfl h.gone h.age
    · cases hs
  | readFile p =>
    rw [SessionFiles.step] at hs
    split at hs
    · split at hs
      · rename_i hexpired
        cases hs
        exact h.setPhase rfl hexpired.2 rfl h.gone h.age
      · cases hs
        exact h.setPhase rfl trivial rfl h.gone h.age
    · cases hs
  | unlink p =>
    rw [SessionFiles.step] at hs
    split at hs
    · rename_i sid file hphase
      cases hs
      have hsame : (s.dir (.session sid)).all (· == file) = true := by
        rw [careful, hphase] at hok
        exact hok
      exact h.delete rfl trivial rfl rfl rfl (fun _ _ => h.expired hphase) hsame
    · cases hs
  | mkstemp p sid suffix blob =>
    rw [SessionFiles.step] at hs
    split at hs
    · cases hs
      have hdir := fun sid' =>
        update_temp s.dir sid sid' suffix (some ⟨s.nextInode, s.clock, blob⟩)
      refine h.setPhase rfl trivial rfl ?_ ?_
      · intro sid' now hlast hnone
        exact h.gone hlast ((hdir sid').symm.trans hnone)
      · intro sid' file hfile
        exact h.age ((hdir sid').symm.trans hfile)
    · cases hs
  | rename p =>
    rw [SessionFiles.step] at hs
    split at hs
    · rename_i sid suffix hphase
      split at hs
      · cases hs
        exact h.setPhase rfl trivial rfl h.gone h.age
      · rename_i file hfile
        cases hs
        have hmtime : file.mtime = s.clock := by
          rw [careful, hphase] at hok
          dsimp only at hok
          rw [hfile, Option.all_some, beq_iff_eq] at hok
          exact hok
        have hother : ∀ sid', sid' ≠ sid → Function.update (Function.update s.dir
            (.temp sid suffix) none) (.session sid) (some file) (.session sid') =
              s.dir (.session sid') := by
          intro sid' hne
          have hname : Name.session sid' ≠ .session sid := fun heq => hne (Name.session.inj heq)
          rw [Function.update_of_ne hname, update_temp]
        refine h.setPhase rfl trivial rfl ?_ ?_
        · intro sid' now hlast hnone
          by_cases hsid : sid' = sid
          · subst hsid
            exact absurd ((Function.update_self ..).symm.trans hnone) nofun
          · exact h.gone ((Function.update_of_ne hsid ..).symm.trans hlast)
              ((hother sid' hsid).symm.trans hnone)
        · intro sid' file' hfile'
          by_cases hsid : sid' = sid
          · subst hsid
            have hself := Function.update_self (Name.session sid') (some file)
              (Function.update s.dir (.temp sid' suffix) none)
            have hsome : some file = some file' := hself.symm.trans hfile'
            obtain rfl : file = file' := Option.some.inj hsome
            exact (Function.update_self ..).trans (congrArg some hmtime.symm)
          · exact (Function.update_of_ne hsid ..).trans
              (h.age ((hother sid' hsid).symm.trans hfile'))
    · cases hs
  | sweep p =>
    rw [SessionFiles.step] at hs
    split at hs
    · cases hs
      exact h.setPhase rfl (le_refl _) rfl h.gone h.age
    · cases hs
  | fstatat p name =>
    rw [SessionFiles.step] at hs
    split at hs
    · rename_i now file hphase hfile
      have hnow := h.sweeping hphase
      split at hs
      · rename_i hold
        cases hs
        refine h.setPhase rfl ⟨hnow, ?_⟩ rfl h.gone h.age
        rintro sid rfl
        have hold : ttl < now - file.mtime := hold
        exact lt_of_lt_of_le hold (Int.sub_le_sub_right hnow _)
      · cases hs
        exact h
    · cases hs
  | unlinkat p =>
    rw [SessionFiles.step] at hs
    split at hs
    · rename_i now name file hphase
      cases hs
      obtain ⟨hnow, hold⟩ := h.doomed hphase
      have hsame : (s.dir name).all (· == file) = true := by
        rw [careful, hphase] at hok
        exact hok
      exact h.delete rfl hnow rfl rfl rfl hold hsame
    · cases hs
  | endSweep p =>
    rw [SessionFiles.step] at hs
    split at hs
    · cases hs
      exact h.setPhase rfl trivial rfl h.gone h.age
    · cases hs

/-- In a run of careful steps no session is deleted before it is expired. -/
theorem survives_of_run {clock : Int}
    (h : RunWhere (Step ttl) (fun s a => careful s a = true) (State.start clock) s) :
    Survives ttl s :=
  (h.keeps (fun _ _ _ hs hok hi => hi.step hs hok) start_kept).survives

end Kept

/-- An expired session is deleted and written again. -/
theorem survives_of_run_rewrite : ∃ s : State Bool Unit, s.completed () = some 20 ∧
    (s.dir (.session ())).map File.mtime = some 20 ∧ Survives 10 s := by
  have hrun : stepsWhere (step 10) careful (State.start 0) [.mkstemp true () 0 [1], .rename true,
      .tick 20, .openFile false (), .readFile false, .unlink false, .mkstemp true () 0 [2],
      .rename true, .sweep false, .fstatat false (.session ()), .endSweep false] = some _ := rfl
  exact ⟨_, rfl, rfl, survives_of_run (runWhere_of_stepsWhere hrun)⟩

/-- A reader finds an expired file, the session is written again, and the reader deletes it. -/
theorem not_survives : ∃ s : State Bool Unit, Run (Step 10) (State.start 0) s ∧
    s.clock = 11 ∧ s.completed () = some 11 ∧ s.dir (.session ()) = none ∧ ¬ Survives 10 s := by
  have hrun : [.mkstemp true () 0 [1], .rename true, .tick 11, .openFile false (), .readFile false,
      .mkstemp true () 0 [2], .rename true, .unlink false].foldlM (step 10)
      (State.start 0 : State Bool Unit) = some _ := rfl
  refine ⟨_, run_of_foldlM hrun, rfl, rfl, rfl, ?_⟩
  intro h
  exact Bool.false_ne_true (h () 11 rfl (by decide))

end SessionFiles

end Look
