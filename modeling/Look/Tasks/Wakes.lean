/-
No wake-up of a fiber is lost.

Each fiber is in one of a few phases, which say where the scheduler keeps it, what its state is
and who has the answer to its suspension.  There is one answer at a time, so a fiber is made ready
once; and an answer that comes too early finds `run_one` still before its last section, where
`pending_resume_` is looked at.
-/
import Look.Tasks.Fibers

namespace Look

namespace Fibers

/-! ## The phases of a fiber -/

/-- How the thread of the scheduler has the fiber. -/
inductive Stage where
  | away
  | picked
  | running
  | yielded
deriving DecidableEq

/-- The code is at `Fiber::yield` of a suspension. -/
def Code.atSwitch : Code → Bool
  | .suspending | .arming _ _ => true
  | _ => false

/-- The code is behind `Fiber::yield` of a suspension. -/
def Code.behind : Code → Bool
  | .suspended | .waits _ => true
  | _ => false

/-- The code is in `suspend_current`. -/
def Code.suspends : Code → Bool
  | .suspending | .suspended => true
  | _ => false

/-- The code is in `wait_readable_tmo`, with this key. -/
def Code.waitsFor (key : Int) : Code → Bool
  | .arming _ k | .waits k => decide (k = key)
  | _ => false

theorem absurd_code {p : Code → Bool} {code c : Code} (h : p code = true) (hc : code = c)
    (hp : p c = false) : False := by
  rw [hc, hp] at h
  cases h

/-- A fiber that goes on when it runs next. -/
inductive Returns (x : Fiber) : Prop
  | free (hcode : x.code = .free) (hanswer : x.answer = .nothing) (htimed : x.ioTimedOut = false)
  | suspended (hcode : x.code = .suspended) (hanswer : x.answer = .given)
      (htimed : x.ioTimedOut = false)
  | waited (key : Int) (hcode : x.code = .waits key) (hanswer : x.answer = .given)
      (hwhy : if x.ioTimedOut then x.expired = true else x.delivered = true)

/-- A suspension whose answer is to come. -/
inductive Open (x : Fiber) : Prop
  | owed (hcode : x.code.suspends = true) (hanswer : x.answer = .owed)
  | pool (hcode : x.code.suspends = true) (hanswer : x.answer = .pool) (hjob : x.jobOpen = false)
  | fd (key : Int) (hcode : x.code.waitsFor key = true) (hanswer : x.answer = .fd key)
      (hjob : x.jobOpen = false)
  | found (key : Int) (hcode : x.code.waitsFor key = true) (hanswer : x.answer = .found)
      (hjob : x.jobOpen = false) (hdelivered : x.delivered = true)
  | expired (key : Int) (hcode : x.code.waitsFor key = true) (hanswer : x.answer = .expired key)
      (hjob : x.jobOpen = false) (hexpired : x.expired = true)

/-- A suspension that was answered before `run_one` has looked at it. -/
structure Early (x : Fiber) : Prop where
  answer : x.answer = .given
  pending : x.pendingResume = true
  job : x.jobOpen = false

/-- A suspension that `run_one` has still to look at. -/
inductive Pending (x : Fiber) : Prop
  | later (hpending : x.pendingResume = false) (hopen : Open x)
  | early (hcode : x.code.suspends = true) (hearly : Early x)

/-- The phases: `ready` and `waiting` say if the fiber is in these lists. -/
inductive Phase (x : Fiber) (stage : Stage) (ready waiting : Prop) : Prop
  | fresh (hx : x = .fresh) (hstage : stage = .away) (hready : ¬ ready) (hwaiting : ¬ waiting)
  | ready (hspawned : x.spawned = true) (hdone : x.done = false) (hstate : x.schedState = .READY)
      (hpending : x.pendingResume = false) (hjob : x.jobOpen = false) (hreturns : Returns x)
      (hwhere : stage = .away ∧ ready ∨ stage = .picked ∧ ¬ ready) (hwaiting : ¬ waiting)
  | running (hspawned : x.spawned = true) (hdone : x.done = false)
      (hstate : x.schedState = .RUNNING) (hpending : x.pendingResume = false)
      (hjob : x.jobOpen = false) (hreturns : Returns x) (hstage : stage = .running)
      (hready : ¬ ready) (hwaiting : ¬ waiting)
  | posted (hspawned : x.spawned = true) (hdone : x.done = false)
      (hstate : x.schedState = .RUNNING) (hcode : x.code = .posted) (htimed : x.ioTimedOut = false)
      (hanswer : x.answer = .owed ∧ x.pendingResume = false ∨ Early x)
      (hstage : stage = .running) (hready : ¬ ready) (hwaiting : ¬ waiting)
  | suspending (hspawned : x.spawned = true) (hdone : x.done = false)
      (hstate : x.schedState = .SUSPENDING) (htimed : x.ioTimedOut = false) (hpending : Pending x)
      (hwhere : stage = .running ∧ x.code.atSwitch = true ∨ stage = .yielded ∧ x.code.behind = true)
      (hready : ¬ ready) (hwaiting : waiting)
  | yielded (hspawned : x.spawned = true) (hstate : x.schedState = .RUNNING)
      (hpending : x.pendingResume = false) (hjob : x.jobOpen = false) (hcode : x.code = .free)
      (hanswer : x.answer = .nothing) (htimed : x.ioTimedOut = false) (hstage : stage = .yielded)
      (hready : ¬ ready) (hwaiting : ¬ waiting)
  | waiting (hspawned : x.spawned = true) (hdone : x.done = false)
      (hstate : x.schedState = .WAITING) (hpending : x.pendingResume = false)
      (htimed : x.ioTimedOut = false) (hopen : Open x) (hcode : x.code.behind = true)
      (hstage : stage = .away) (hready : ¬ ready) (hwaiting : waiting)
  | done (hspawned : x.spawned = true) (hstate : x.schedState = .DONE)
      (hanswer : x.answer = .nothing) (hjob : x.jobOpen = false) (hstage : stage = .away)
      (hready : ¬ ready) (hwaiting : ¬ waiting)

section Phases

variable {F : Type} [DecidableEq F]

/-- How the thread of the scheduler has a fiber. -/
def Place.stage : Place F → F → Stage
  | .picked g, f => if g = f then .picked else .away
  | .running g, f => if g = f then .running else .away
  | .yielded g, f => if g = f then .yielded else .away
  | _, _ => .away

def PhaseOf (s : State F) (f : F) : Prop :=
  Phase (s.fiber f) (s.place.stage f) (f ∈ s.ready) (f ∈ s.waiting)

/-- The events that are left. -/
def Place.eventsLeft : Place F → List Int
  | .events fds => fds
  | .found _ fds => fds
  | _ => []

/-- `pool_waiters_` has the answers of those who are in it. -/
structure Pooled (s : State F) : Prop where
  nodup : s.poolWaiters.Nodup
  mem : ∀ f, f ∈ s.poolWaiters ↔ (s.fiber f).answer = .pool

/-- Who has the answers to the waits for descriptors. -/
structure Wired (s : State F) : Prop where
  fd : ∀ key f, s.fdToFiber key = some f ↔ (s.fiber f).answer = .fd key
  found : ∀ f fds, s.place = .found f fds → (s.fiber f).answer = .found
  expired_nodup : ∀ waits, s.place = .expired waits → (waits.map Prod.snd).Nodup
  expired : ∀ waits, s.place = .expired waits →
    ∀ p ∈ waits, (s.fiber p.2).answer = .expired p.1
  events : ∀ key ∈ s.place.eventsLeft, ∀ f, s.fdToFiber key = some f →
    (s.fiber f).delivered = true
  deadline_nodup : (s.fdDeadline.map Prod.fst).Nodup
  deadline : ∀ key d, (key, d) ∈ s.fdDeadline →
    ∃ f, s.fdToFiber key = some f ∧ (s.fiber f).deadline = some d
  seq : s.timerKeySeq < 0
  keys : ∀ key f, s.fdToFiber key = some f → s.timerKeySeq < key

/-- A return from `wait_readable_tmo` tells the truth. -/
def Truthful (r : Result F) : Prop :=
  (r.value = 1 → r.delivered = true) ∧ (r.value = 0 → r.expired = true)

/-- The invariant. -/
structure Inv (s : State F) : Prop where
  phase : ∀ f, PhaseOf s f
  ready : s.ready.Nodup
  waiting : s.waiting.Nodup
  pooled : Pooled s
  wired : Wired s
  results : ∀ r ∈ s.results, Truthful r

variable {s s' : State F} {f g : F} {x : Fiber}

theorem start_inv : Inv (State.start : State F) where
  phase := fun _ => .fresh rfl rfl List.not_mem_nil List.not_mem_nil
  ready := List.nodup_nil
  waiting := List.nodup_nil
  pooled := ⟨List.nodup_nil, fun _ => ⟨fun h => absurd h List.not_mem_nil, nofun⟩⟩
  wired :=
    { fd := fun _ _ => ⟨fun h => absurd h (Option.some_ne_none _).symm, nofun⟩
      found := nofun
      expired_nodup := nofun
      expired := nofun
      events := fun _ h => absurd h List.not_mem_nil
      deadline_nodup := List.nodup_nil
      deadline := fun _ _ h => absurd h List.not_mem_nil
      seq := (by decide : (-2 : Int) < 0)
      keys := fun _ _ h => absurd h (Option.some_ne_none _).symm }
  results := fun _ h => absurd h List.not_mem_nil

/-! ## What one step changes -/

/-- Only this fiber is moved. -/
structure Moved (s s' : State F) (f : F) : Prop where
  fiber : ∀ g, g ≠ f → s'.fiber g = s.fiber g
  stage : ∀ g, g ≠ f → s'.place.stage g = s.place.stage g
  ready : ∀ g, g ≠ f → (g ∈ s'.ready ↔ g ∈ s.ready)
  waiting : ∀ g, g ≠ f → (g ∈ s'.waiting ↔ g ∈ s.waiting)

theorem Moved.phases (hm : Moved s s' f) (h : ∀ g, PhaseOf s g) (hf : PhaseOf s' f) :
    ∀ g, PhaseOf s' g := by
  intro g
  by_cases hg : g = f
  · exact hg ▸ hf
  · have hphase := h g
    rw [PhaseOf] at hphase ⊢
    rw [hm.fiber g hg, hm.stage g hg, propext (hm.ready g hg), propext (hm.waiting g hg)]
    exact hphase

theorem stage_of_ne_of_holds {p : Place F} (hp : p = .picked f ∨ p = .running f ∨ p = .yielded f)
    (hg : g ≠ f) : p.stage g = .away := by
  rcases hp with rfl | rfl | rfl <;> exact if_neg (Ne.symm hg)

omit [DecidableEq F] in
theorem mem_append_of_ne (l : List F) (hg : g ≠ f) : g ∈ l ++ [f] ↔ g ∈ l := by
  rw [List.mem_append, List.mem_singleton]
  exact ⟨fun h => h.resolve_right hg, Or.inl⟩

omit [DecidableEq F] in
theorem nodup_append (l : List F) (h : l.Nodup) (hf : f ∉ l) : (l ++ [f]).Nodup :=
  List.nodup_append.mpr ⟨h, List.nodup_singleton f, fun a ha b hb he => by
    rw [List.mem_singleton] at hb
    exact hf (hb ▸ he ▸ ha)⟩

/-! ### The answers -/

/-- The answer is not with a wait for a descriptor. -/
def Answer.offWire : Answer → Bool
  | .nothing | .owed | .pool | .given => true
  | _ => false

/-- The thread of the scheduler has no answer in its hands. -/
def Place.Plain : Place F → Prop
  | .between => True
  | .picked _ => True
  | .running _ => True
  | .yielded _ => True
  | _ => False

omit [DecidableEq F] in
theorem notMem_eventsLeft {p : Place F} (hp : p.Plain) {key : Int} : key ∉ p.eventsLeft := by
  cases p with
  | events fds => exact False.elim hp
  | found g fds => exact False.elim hp
  | between => exact List.not_mem_nil
  | picked g => exact List.not_mem_nil
  | running g => exact List.not_mem_nil
  | yielded g => exact List.not_mem_nil
  | expired waits => exact List.not_mem_nil

omit [DecidableEq F] in
theorem Pooled.congr (h : Pooled s) (hpool : s'.poolWaiters = s.poolWaiters)
    (hfiber : s'.fiber = s.fiber) : Pooled s' :=
  ⟨hpool ▸ h.nodup, fun f => by rw [hpool, hfiber]; exact h.mem f⟩

omit [DecidableEq F] in
theorem Wired.congr (h : Wired s) (hfd : s'.fdToFiber = s.fdToFiber)
    (hdeadline : s'.fdDeadline = s.fdDeadline) (hseq : s'.timerKeySeq = s.timerKeySeq)
    (hfiber : s'.fiber = s.fiber) (hplace : s'.place = s.place ∨ s'.place.Plain) : Wired s' := by
  have hfound : ∀ g fds, s'.place = .found g fds → s.place = .found g fds := by
    intro g fds hp
    rcases hplace with he | he
    · exact he ▸ hp
    · rw [hp] at he
      exact False.elim he
  have hexpired : ∀ waits, s'.place = .expired waits → s.place = .expired waits := by
    intro waits hp
    rcases hplace with he | he
    · exact he ▸ hp
    · rw [hp] at he
      exact False.elim he
  have hevents : ∀ key ∈ s'.place.eventsLeft, key ∈ s.place.eventsLeft := by
    intro key hkey
    rcases hplace with he | he
    · exact he ▸ hkey
    · exact absurd hkey (notMem_eventsLeft he)
  constructor
  · exact fun key f => by rw [hfd, hfiber]; exact h.fd key f
  · exact fun g fds hp => hfiber ▸ h.found g fds (hfound g fds hp)
  · exact fun waits hp => h.expired_nodup waits (hexpired waits hp)
  · exact fun waits hp p hmem => hfiber ▸ h.expired waits (hexpired waits hp) p hmem
  · intro key hkey g hg
    rw [hfd] at hg
    exact hfiber ▸ h.events key (hevents key hkey) g hg
  · exact hdeadline ▸ h.deadline_nodup
  · exact fun key d => by rw [hdeadline, hfd, hfiber]; exact h.deadline key d
  · exact hseq ▸ h.seq
  · exact fun key f => by rw [hfd, hseq]; exact h.keys key f

theorem set_fiber_self : (s.set f x).fiber f = x := Function.update_self ..

theorem set_fiber_of_ne (hg : g ≠ f) : (s.set f x).fiber g = s.fiber g :=
  Function.update_of_ne hg ..

theorem Pooled.set (h : Pooled s) (hiff : x.answer = .pool ↔ (s.fiber f).answer = .pool) :
    Pooled (s.set f x) := by
  refine ⟨h.nodup, fun g => (h.mem g).trans ?_⟩
  by_cases hg : g = f
  · rw [hg, set_fiber_self, hiff]
  · rw [set_fiber_of_ne hg]

theorem Pooled.set_off (h : Pooled s) (hold : (s.fiber f).answer ≠ .pool)
    (hnew : x.answer ≠ .pool) : Pooled (s.set f x) :=
  h.set (iff_of_false hnew hold)

/-- A new value of a fiber with the same answer. -/
theorem Wired.set_same (h : Wired s) (hanswer : x.answer = (s.fiber f).answer)
    (hdeadline : x.deadline = (s.fiber f).deadline)
    (hdelivered : x.delivered = (s.fiber f).delivered) : Wired (s.set f x) := by
  have hans : ∀ g, ((s.set f x).fiber g).answer = (s.fiber g).answer := by
    intro g
    by_cases hg : g = f
    · rw [hg, set_fiber_self, hanswer]
    · rw [set_fiber_of_ne hg]
  have hdel : ∀ g, ((s.set f x).fiber g).delivered = (s.fiber g).delivered := by
    intro g
    by_cases hg : g = f
    · rw [hg, set_fiber_self, hdelivered]
    · rw [set_fiber_of_ne hg]
  have hdl : ∀ g, ((s.set f x).fiber g).deadline = (s.fiber g).deadline := by
    intro g
    by_cases hg : g = f
    · rw [hg, set_fiber_self, hdeadline]
    · rw [set_fiber_of_ne hg]
  constructor
  · exact fun key g => (hans g).symm ▸ h.fd key g
  · exact fun g fds hp => (hans g).trans (h.found g fds hp)
  · exact h.expired_nodup
  · exact fun waits hp p hmem => (hans p.2).trans (h.expired waits hp p hmem)
  · exact fun key hkey g hg => (hdel g).trans (h.events key hkey g hg)
  · exact h.deadline_nodup
  · intro key d hd
    obtain ⟨g, hg, hgd⟩ := h.deadline key d hd
    exact ⟨g, hg, (hdl g).trans hgd⟩
  · exact h.seq
  · exact h.keys

/-- A new value of a fiber that waits for no descriptor, before and after. -/
theorem Wired.set_off (h : Wired s) (hold : (s.fiber f).answer.offWire = true)
    (hnew : x.answer.offWire = true) : Wired (s.set f x) := by
  have hne : ∀ {a : Answer} {g : F}, a.offWire = false → (s.fiber g).answer = a → g ≠ f := by
    intro a g ha hg he
    rw [← he, hg, ha] at hold
    cases hold
  have hans : ∀ a : Answer, a.offWire = false → ∀ g, ((s.set f x).fiber g).answer = a ↔
      (s.fiber g).answer = a := by
    intro a ha g
    by_cases hg : g = f
    · rw [hg, set_fiber_self]
      refine ⟨fun he => ?_, fun he => absurd rfl (hne ha he)⟩
      rw [he, ha] at hnew
      cases hnew
    · rw [set_fiber_of_ne hg]
  constructor
  · exact fun key g => (h.fd key g).trans (hans (.fd key) rfl g).symm
  · exact fun g fds hp => (hans .found rfl g).mpr (h.found g fds hp)
  · exact h.expired_nodup
  · exact fun waits hp p hmem => (hans (.expired p.1) rfl p.2).mpr (h.expired waits hp p hmem)
  · intro key hkey g hg
    rw [set_fiber_of_ne (hne rfl ((h.fd key g).mp hg))]
    exact h.events key hkey g hg
  · exact h.deadline_nodup
  · intro key d hd
    obtain ⟨g, hg, hgd⟩ := h.deadline key d hd
    refine ⟨g, hg, ?_⟩
    rw [set_fiber_of_ne (hne rfl ((h.fd key g).mp hg))]
    exact hgd
  · exact h.seq
  · exact h.keys

theorem phaseOf_of {stage : Stage} (hx : s.fiber f = x) (hstage : s.place.stage f = stage)
    (h : Phase x stage (f ∈ s.ready) (f ∈ s.waiting)) : PhaseOf s f := by
  rw [PhaseOf, hx, hstage]
  exact h

theorem moved_set : Moved s (s.set f x) f :=
  ⟨fun _ hg => set_fiber_of_ne hg, fun _ _ => rfl, fun _ _ => Iff.rfl, fun _ _ => Iff.rfl⟩

theorem stage_running : (Place.running f).stage f = .running := if_pos rfl

theorem stage_yielded : (Place.yielded f).stage f = .yielded := if_pos rfl

/-- The fiber that runs switches to the thread. -/
theorem stage_switched (hplace : s.place = .running f) (hg : g ≠ f) :
    (Place.yielded f).stage g = s.place.stage g := by
  rw [hplace, stage_of_ne_of_holds (Or.inr (Or.inr rfl)) hg,
    stage_of_ne_of_holds (Or.inr (Or.inl rfl)) hg]

/-! ## The fiber that runs -/

theorem Inv.running (h : Inv s) (hplace : s.place = .running f) :
    Phase (s.fiber f) .running (f ∈ s.ready) (f ∈ s.waiting) := by
  have hphase := h.phase f
  rwa [PhaseOf, hplace, stage_running] at hphase

/-- It is outside the scheduler, or has come back from a suspension. -/
structure Returned (x : Fiber) (ready waiting : Prop) : Prop where
  spawned : x.spawned = true
  done : x.done = false
  state : x.schedState = .RUNNING
  pending : x.pendingResume = false
  job : x.jobOpen = false
  returns : Returns x
  ready : ¬ ready
  waiting : ¬ waiting

/-- It has given a job away. -/
structure HasPosted (x : Fiber) (ready waiting : Prop) : Prop where
  code : x.code = .posted
  spawned : x.spawned = true
  done : x.done = false
  timed : x.ioTimedOut = false
  answer : x.answer = .owed ∧ x.pendingResume = false ∨ Early x
  ready : ¬ ready
  waiting : ¬ waiting

/-- It is at the switch of a suspension. -/
structure Switching (x : Fiber) (ready waiting : Prop) : Prop where
  code : x.code.atSwitch = true
  spawned : x.spawned = true
  done : x.done = false
  state : x.schedState = .SUSPENDING
  timed : x.ioTimedOut = false
  pending : Pending x
  ready : ¬ ready
  waiting : waiting

variable {ready waiting : Prop}

theorem Phase.of_running (h : Phase x .running ready waiting) :
    Returned x ready waiting ∨ HasPosted x ready waiting ∨ Switching x ready waiting := by
  cases h with
  | running hspawned hdone hstate hpending hjob hreturns _ hready hwaiting =>
    exact Or.inl ⟨hspawned, hdone, hstate, hpending, hjob, hreturns, hready, hwaiting⟩
  | posted hspawned hdone _ hcode htimed hanswer _ hready hwaiting =>
    exact Or.inr (Or.inl ⟨hcode, hspawned, hdone, htimed, hanswer, hready, hwaiting⟩)
  | suspending hspawned hdone hstate htimed hpending hwhere hready hwaiting =>
    rcases hwhere with ⟨_, hat⟩ | ⟨hstage, _⟩
    · exact Or.inr (Or.inr ⟨hat, hspawned, hdone, hstate, htimed, hpending, hready, hwaiting⟩)
    · cases hstage
  | ready _ _ _ _ _ _ hwhere => rcases hwhere with ⟨hstage, _⟩ | ⟨hstage, _⟩ <;> cases hstage
  | fresh _ hstage => cases hstage
  | yielded _ _ _ _ _ _ _ hstage => cases hstage
  | waiting _ _ _ _ _ _ _ hstage => cases hstage
  | done _ _ _ _ hstage => cases hstage

theorem Returns.code (h : Returns x) : x.code = .free ∨ x.code.behind = true := by
  cases h with
  | free hcode => exact Or.inl hcode
  | suspended hcode => exact Or.inr (congrArg Code.behind hcode)
  | waited key hcode => exact Or.inr (congrArg Code.behind hcode)

theorem Phase.outside (h : Phase x .running ready waiting) (hcode : x.code = .free) :
    Returned x ready waiting ∧ x.answer = .nothing ∧ x.ioTimedOut = false := by
  rcases h.of_running with hret | hpost | hswitch
  · cases hret.returns with
    | free _ hanswer htimed => exact ⟨hret, hanswer, htimed⟩
    | suspended hcode' => exact absurd (hcode.symm.trans hcode') nofun
    | waited key hcode' => exact absurd (hcode.symm.trans hcode') nofun
  · exact absurd (hcode.symm.trans hpost.code) nofun
  · exact (absurd_code hswitch.code hcode rfl).elim

theorem Phase.hasPosted (h : Phase x .running ready waiting) (hcode : x.code = .posted) :
    HasPosted x ready waiting := by
  rcases h.of_running with hret | hpost | hswitch
  · rcases hret.returns.code with hcode' | hcode'
    · exact absurd (hcode.symm.trans hcode') nofun
    · exact (absurd_code hcode' hcode rfl).elim
  · exact hpost
  · exact (absurd_code hswitch.code hcode rfl).elim

theorem Phase.switching (h : Phase x .running ready waiting) (hcode : x.code.atSwitch = true) :
    Switching x ready waiting := by
  rcases h.of_running with hret | hpost | hswitch
  · cases hret.returns with
    | free hcode' => exact (absurd_code hcode hcode' rfl).elim
    | suspended hcode' => exact (absurd_code hcode hcode' rfl).elim
    | waited key hcode' => exact (absurd_code hcode hcode' rfl).elim
  · exact (absurd_code hcode hpost.code rfl).elim
  · exact hswitch

theorem Phase.returned (h : Phase x .running ready waiting) (hcode : x.code.behind = true) :
    Returned x ready waiting := by
  rcases h.of_running with hret | hpost | hswitch
  · exact hret
  · exact (absurd_code hcode hpost.code rfl).elim
  · have hat := hswitch.code
    cases hc : x.code with
    | suspending => exact (absurd_code hcode hc rfl).elim
    | arming fd key => exact (absurd_code hcode hc rfl).elim
    | _ => exact (absurd_code hat hc rfl).elim

theorem Inv.post (h : Inv s) (hplace : s.place = .running f) (hcode : (s.fiber f).code = .free)
    (offload : Bool) :
    Inv (s.set f { s.fiber f with code := .posted, answer := .owed, jobOpen := offload }) := by
  obtain ⟨hret, hanswer, htimed⟩ := (h.running hplace).outside hcode
  refine ⟨moved_set.phases h.phase ?_, h.ready, h.waiting, ?_, ?_, h.results⟩
  · refine phaseOf_of set_fiber_self (hplace ▸ stage_running) ?_
    exact .posted hret.spawned hret.done hret.state rfl htimed (Or.inl ⟨rfl, hret.pending⟩) rfl
      hret.ready hret.waiting
  · exact h.pooled.set_off (hanswer.trans_ne nofun) nofun
  · exact h.wired.set_off (congrArg Answer.offWire hanswer) rfl

/-- The fiber puts itself into `waiting_`. -/
theorem moved_waiting {s' : State F} (hfiber : s'.fiber = Function.update s.fiber f x)
    (hplace : s'.place = s.place) (hready : s'.ready = s.ready)
    (hwaiting : s'.waiting = s.waiting ++ [f]) : Moved s s' f where
  fiber := fun _ hg => hfiber ▸ Function.update_of_ne hg ..
  stage := fun _ _ => by rw [hplace]
  ready := fun _ _ => by rw [hready]
  waiting := fun _ hg => by rw [hwaiting, mem_append_of_ne _ hg]

theorem Inv.suspend (h : Inv s) (hplace : s.place = .running f)
    (hcode : (s.fiber f).code = .posted) :
    Inv { s.set f { s.fiber f with code := .suspending, schedState := .SUSPENDING } with
      waiting := s.waiting ++ [f] } := by
  have hpost := (h.running hplace).hasPosted hcode
  have hpending : Pending { s.fiber f with code := .suspending, schedState := .SUSPENDING } := by
    rcases hpost.answer with ⟨howed, hno⟩ | hearly
    · exact .later hno (.owed rfl howed)
    · exact .early rfl ⟨hearly.answer, hearly.pending, hearly.job⟩
  refine ⟨Moved.phases (s := s) (moved_waiting rfl rfl rfl rfl) h.phase ?_, h.ready,
    nodup_append _ h.waiting hpost.waiting, ?_, ?_, h.results⟩
  · refine phaseOf_of set_fiber_self (hplace ▸ stage_running) ?_
    exact .suspending hpost.spawned hpost.done rfl hpost.timed hpending (Or.inl ⟨rfl, rfl⟩)
      hpost.ready (List.mem_append_right _ List.mem_cons_self)
  · exact (h.pooled.set (x := { s.fiber f with
      code := .suspending, schedState := .SUSPENDING }) Iff.rfl).congr rfl rfl
  · exact (h.wired.set_same (x := { s.fiber f with
      code := .suspending, schedState := .SUSPENDING }) rfl rfl rfl).congr rfl rfl rfl rfl
        (Or.inl rfl)

theorem Inv.suspendForPool (h : Inv s) (hplace : s.place = .running f)
    (hcode : (s.fiber f).code = .free) :
    Inv { s.set f { s.fiber f with
        code := .suspending, schedState := .SUSPENDING, answer := .pool } with
      waiting := s.waiting ++ [f], poolWaiters := s.poolWaiters ++ [f] } := by
  obtain ⟨hret, hanswer, htimed⟩ := (h.running hplace).outside hcode
  have hpool : f ∉ s.poolWaiters := fun hm =>
    absurd (hanswer.symm.trans ((h.pooled.mem f).mp hm)) nofun
  refine ⟨Moved.phases (s := s) (moved_waiting rfl rfl rfl rfl) h.phase ?_, h.ready,
    nodup_append _ h.waiting hret.waiting, ⟨nodup_append _ h.pooled.nodup hpool, fun g => ?_⟩, ?_,
    h.results⟩
  · refine phaseOf_of set_fiber_self (hplace ▸ stage_running) ?_
    exact .suspending hret.spawned hret.done rfl htimed (.later hret.pending (.pool rfl rfl hret.job))
      (Or.inl ⟨rfl, rfl⟩) hret.ready (List.mem_append_right _ List.mem_cons_self)
  · by_cases hg : g = f
    · subst hg
      exact ⟨fun _ => congrArg Fiber.answer set_fiber_self,
        fun _ => List.mem_append_right _ List.mem_cons_self⟩
    · show g ∈ s.poolWaiters ++ [f] ↔ ((s.set f _).fiber g).answer = .pool
      rw [mem_append_of_ne _ hg, set_fiber_of_ne hg]
      exact h.pooled.mem g
  · exact (h.wired.set_off (x := { s.fiber f with
      code := .suspending, schedState := .SUSPENDING, answer := .pool })
        (congrArg Answer.offWire hanswer) rfl).congr rfl rfl rfl rfl (Or.inl rfl)

/-- A fiber registers a wait under a key that is free. -/
theorem Wired.register {key : Int} (h : Wired s) (hold : (s.fiber f).answer.offWire = true)
    (hfree : s.fdToFiber key = none) (hx : x.answer = .fd key)
    (hfiber : s'.fiber = Function.update s.fiber f x)
    (hfd : s'.fdToFiber = Function.update s.fdToFiber key (some f))
    (hdeadline : s'.fdDeadline = match x.deadline with
      | some d => SortedMap.put key d s.fdDeadline
      | none => s.fdDeadline)
    (hplain : s'.place.Plain) (hseq : s'.timerKeySeq < 0) (hle : s'.timerKeySeq ≤ s.timerKeySeq)
    (hkey : s'.timerKeySeq < key) : Wired s' := by
  have hne : ∀ {k : Int} {g : F}, s.fdToFiber k = some g → g ≠ f ∧ k ≠ key := by
    intro k g hg
    refine ⟨fun he => ?_, fun he => ?_⟩
    · rw [← he, (h.fd k g).mp hg] at hold
      cases hold
    · rw [he, hfree] at hg
      cases hg
  have hnew : ∀ k, k ≠ key → s'.fdToFiber k = s.fdToFiber k :=
    fun k hk => hfd ▸ Function.update_of_ne hk ..
  have hself : s'.fdToFiber key = some f := hfd ▸ Function.update_self ..
  have hothers : ∀ g, g ≠ f → s'.fiber g = s.fiber g :=
    fun g hg => hfiber ▸ Function.update_of_ne hg ..
  have hxf : s'.fiber f = x := hfiber ▸ Function.update_self ..
  have hkept : ∀ k d, (k, d) ∈ s.fdDeadline →
      ∃ g, s'.fdToFiber k = some g ∧ (s'.fiber g).deadline = some d := by
    intro k d hd
    obtain ⟨g, hg, hgd⟩ := h.deadline k d hd
    obtain ⟨hgf, hkk⟩ := hne hg
    exact ⟨g, (hnew k hkk).trans hg, hothers g hgf ▸ hgd⟩
  constructor
  · intro k g
    by_cases hk : k = key
    · subst hk
      rw [hself, Option.some.injEq]
      refine ⟨fun he => he ▸ hxf ▸ hx, fun he => ?_⟩
      by_cases hg : g = f
      · exact hg.symm
      · rw [hothers g hg] at he
        rw [(h.fd k g).mpr he] at hfree
        cases hfree
    · rw [hnew k hk]
      by_cases hg : g = f
      · subst hg
        rw [hxf, hx]
        refine iff_of_false (fun he => (hne he).1 rfl) fun he => ?_
        cases he
        exact hk rfl
      · rw [hothers g hg]
        exact h.fd k g
  · intro g fds hp
    rw [hp] at hplain
    exact False.elim hplain
  · intro waits hp
    rw [hp] at hplain
    exact False.elim hplain
  · intro waits hp
    rw [hp] at hplain
    exact False.elim hplain
  · exact fun k hk => absurd hk (notMem_eventsLeft hplain)
  · rw [hdeadline]
    split
    · exact SortedMap.nodup_put h.deadline_nodup
    · exact h.deadline_nodup
  · intro k d hd
    rw [hdeadline] at hd
    split at hd
    · rename_i d' hd'
      rcases SortedMap.mem_put.mp hd with ⟨rfl, rfl⟩ | ⟨hd, _⟩
      · exact ⟨f, hself, hxf ▸ hd'⟩
      · exact hkept k d hd
    · exact hkept k d hd
  · exact hseq
  · intro k g hg
    by_cases hk : k = key
    · exact hk ▸ hkey
    · exact Int.lt_of_le_of_lt hle (h.keys k g (hnew k hk ▸ hg))

theorem Inv.waitReadable (h : Inv s) (hplace : s.place = .running f)
    (hcode : (s.fiber f).code = .free) {fd : Int} (hfree : fd < 0 ∨ s.fdToFiber fd = none)
    (timeoutMs : Int) : Inv (waitReadable s f fd timeoutMs) := by
  obtain ⟨hret, hanswer, htimed⟩ := (h.running hplace).outside hcode
  have hplain : s.place.Plain := hplace ▸ trivial
  rw [Fibers.waitReadable]
  split
  · refine ⟨h.phase, h.ready, h.waiting, h.pooled.congr rfl rfl,
      h.wired.congr rfl rfl rfl rfl (Or.inl rfl), fun r hr => ?_⟩
    rcases List.mem_append.mp hr with hr | hr
    · exact h.results r hr
    · rw [List.mem_singleton.mp hr]
      exact ⟨fun he => absurd (show (-1 : Int) = 1 from he) (by decide),
        fun he => absurd (show (-1 : Int) = 0 from he) (by decide)⟩
  · have hkeyfree : s.fdToFiber (if fd < 0 then s.timerKeySeq else fd) = none := by
      split
      · cases hg : s.fdToFiber s.timerKeySeq with
        | none => rfl
        | some g => exact absurd (h.wired.keys _ g hg) (Int.lt_irrefl _)
      · rename_i hfd
        exact hfree.resolve_left hfd
    have hseq := h.wired.seq
    dsimp only
    refine ⟨Moved.phases (s := s) (moved_waiting rfl rfl rfl rfl) h.phase ?_, h.ready,
      nodup_append _ h.waiting hret.waiting, ?_, ?_, h.results⟩
    · refine phaseOf_of set_fiber_self (hplace ▸ stage_running) ?_
      exact .suspending hret.spawned hret.done rfl htimed
        (.later hret.pending (.fd _ (decide_eq_true rfl) rfl hret.job)) (Or.inl ⟨rfl, rfl⟩)
        hret.ready (List.mem_append_right _ List.mem_cons_self)
    · refine Pooled.congr (s := s.set f _) (h.pooled.set_off (hanswer.trans_ne nofun) ?_) rfl rfl
      exact nofun
    · refine h.wired.register (congrArg Answer.offWire hanswer) hkeyfree rfl rfl rfl rfl hplain
        ?_ ?_ ?_
      · show (if fd < 0 then s.timerKeySeq - 1 else s.timerKeySeq) < 0
        split <;> omega
      · show (if fd < 0 then s.timerKeySeq - 1 else s.timerKeySeq) ≤ s.timerKeySeq
        split <;> omega
      · show (if fd < 0 then s.timerKeySeq - 1 else s.timerKeySeq) <
          if fd < 0 then s.timerKeySeq else fd
        split <;> omega

/-- A suspension is the same behind the switch. -/
theorem Pending.switch {c : Code} (h : Pending x) (hsuspends : x.code.suspends = c.suspends)
    (hwaits : ∀ key, x.code.waitsFor key = c.waitsFor key) : Pending { x with code := c } := by
  cases h with
  | early hcode hearly =>
    exact .early (hsuspends ▸ hcode) ⟨hearly.answer, hearly.pending, hearly.job⟩
  | later hpending hopen =>
    refine .later hpending ?_
    cases hopen with
    | owed hcode hanswer => exact .owed (hsuspends ▸ hcode) hanswer
    | pool hcode hanswer hjob => exact .pool (hsuspends ▸ hcode) hanswer hjob
    | fd key hcode hanswer hjob => exact .fd key (hwaits key ▸ hcode) hanswer hjob
    | found key hcode hanswer hjob hwhy => exact .found key (hwaits key ▸ hcode) hanswer hjob hwhy
    | expired key hcode hanswer hjob hwhy =>
      exact .expired key (hwaits key ▸ hcode) hanswer hjob hwhy

/-- The fiber that runs switches to the thread. -/
theorem moved_switched {s' : State F} (hrunning : s.place = .running f)
    (hfiber : s'.fiber = Function.update s.fiber f x) (hplace : s'.place = .yielded f)
    (hready : s'.ready = s.ready) (hwaiting : s'.waiting = s.waiting) : Moved s s' f where
  fiber := fun _ hg => hfiber ▸ Function.update_of_ne hg ..
  stage := fun _ hg => by rw [hplace, stage_switched hrunning hg]
  ready := fun _ _ => by rw [hready]
  waiting := fun _ _ => by rw [hwaiting]

theorem Inv.switch {c : Code} (watched : Int → Bool) (h : Inv s) (hplace : s.place = .running f)
    (hcode : (s.fiber f).code.atSwitch = true) (hbehind : c.behind = true)
    (hsuspends : (s.fiber f).code.suspends = c.suspends)
    (hwaits : ∀ key, (s.fiber f).code.waitsFor key = c.waitsFor key) :
    Inv { s.set f { s.fiber f with code := c } with place := .yielded f, watched := watched } := by
  have hsw := (h.running hplace).switching hcode
  refine ⟨Moved.phases (s := s) (moved_switched hplace rfl rfl rfl rfl) h.phase ?_, h.ready,
    h.waiting, ?_, ?_, h.results⟩
  · refine phaseOf_of set_fiber_self stage_yielded ?_
    exact .suspending hsw.spawned hsw.done hsw.state hsw.timed (hsw.pending.switch hsuspends hwaits)
      (Or.inr ⟨rfl, hbehind⟩) hsw.ready hsw.waiting
  · exact (h.pooled.set (x := { s.fiber f with code := c }) Iff.rfl).congr rfl rfl
  · exact (h.wired.set_same (x := { s.fiber f with code := c }) rfl rfl rfl).congr rfl rfl rfl rfl
      (Or.inr trivial)

theorem Inv.yield (h : Inv s) (hplace : s.place = .running f) (hcode : (s.fiber f).code = .free) :
    Inv { s with place := .yielded f } := by
  obtain ⟨hret, hanswer, htimed⟩ := (h.running hplace).outside hcode
  have hmoved : Moved s { s with place := .yielded f } f :=
    ⟨fun _ _ => rfl, fun _ hg => stage_switched hplace hg, fun _ _ => Iff.rfl, fun _ _ => Iff.rfl⟩
  refine ⟨hmoved.phases h.phase ?_, h.ready, h.waiting, h.pooled.congr rfl rfl,
    h.wired.congr rfl rfl rfl rfl (Or.inr trivial), h.results⟩
  refine phaseOf_of rfl stage_yielded ?_
  exact .yielded hret.spawned hret.state hret.pending hret.job hcode hanswer htimed rfl hret.ready
    hret.waiting

theorem Inv.finish (h : Inv s) (hplace : s.place = .running f)
    (hcode : (s.fiber f).code = .free) :
    Inv { s.set f { s.fiber f with done := true } with place := .yielded f } := by
  obtain ⟨hret, hanswer, htimed⟩ := (h.running hplace).outside hcode
  refine ⟨Moved.phases (s := s) (moved_switched hplace rfl rfl rfl rfl) h.phase ?_, h.ready,
    h.waiting, ?_, ?_, h.results⟩
  · refine phaseOf_of set_fiber_self stage_yielded ?_
    exact .yielded hret.spawned hret.state hret.pending hret.job hcode hanswer htimed rfl hret.ready
      hret.waiting
  · exact (h.pooled.set (x := { s.fiber f with done := true }) Iff.rfl).congr rfl rfl
  · exact (h.wired.set_same (x := { s.fiber f with done := true }) rfl rfl rfl).congr rfl rfl rfl
      rfl (Or.inr trivial)

/-- A return from a suspension: nothing else has been promised, so a wait returns 1 for an event
and 0 for its own deadline. -/
theorem Inv.back (h : Inv s) (hplace : s.place = .running f) (hs' : back s f = some s') :
    Inv s' := by
  have hphase := h.running hplace
  rw [Fibers.back] at hs'
  dsimp only at hs'
  split at hs'
  · rename_i hcode
    have hret := hphase.returned (congrArg Code.behind hcode)
    rw [hret.job, if_neg Bool.false_ne_true] at hs'
    cases hs'
    cases hret.returns with
    | free hcode' => exact absurd (hcode.symm.trans hcode') nofun
    | waited key hcode' => exact absurd (hcode.symm.trans hcode') nofun
    | suspended _ hanswer htimed =>
      refine ⟨moved_set.phases h.phase ?_, h.ready, h.waiting, ?_, ?_, h.results⟩
      · refine phaseOf_of set_fiber_self (hplace ▸ stage_running) ?_
        exact .running hret.spawned hret.done hret.state hret.pending rfl
          (.free rfl rfl htimed) rfl hret.ready hret.waiting
      · exact h.pooled.set_off (hanswer.trans_ne nofun) nofun
      · exact h.wired.set_off (congrArg Answer.offWire hanswer) rfl
  · rename_i key hcode
    have hret := hphase.returned (congrArg Code.behind hcode)
    cases hs'
    cases hret.returns with
    | free hcode' => exact absurd (hcode.symm.trans hcode') nofun
    | suspended hcode' => exact absurd (hcode.symm.trans hcode') nofun
    | waited key' _ hanswer hwhy =>
      have hmoved : Moved s { s.set f { s.fiber f with
          code := .free, answer := .nothing, ioTimedOut := false } with
          results := s.results ++ [⟨f, if (s.fiber f).ioTimedOut then 0 else 1,
            (s.fiber f).delivered, (s.fiber f).expired⟩] } f :=
        ⟨fun _ hg => set_fiber_of_ne hg, fun _ _ => rfl, fun _ _ => Iff.rfl, fun _ _ => Iff.rfl⟩
      refine ⟨hmoved.phases h.phase ?_, h.ready, h.waiting, ?_, ?_, fun r hr => ?_⟩
      · refine phaseOf_of set_fiber_self (hplace ▸ stage_running) ?_
        exact .running hret.spawned hret.done hret.state hret.pending hret.job
          (.free rfl rfl rfl) rfl hret.ready hret.waiting
      · refine Pooled.congr (s := s.set f _) (h.pooled.set_off (hanswer.trans_ne nofun) ?_) rfl rfl
        exact nofun
      · refine Wired.congr (s := s.set f _)
          (h.wired.set_off (congrArg Answer.offWire hanswer) ?_) rfl rfl rfl rfl (Or.inl rfl)
        rfl
      · rcases List.mem_append.mp hr with hr | hr
        · exact h.results r hr
        · rw [List.mem_singleton.mp hr]
          cases htimed : (s.fiber f).ioTimedOut with
          | true =>
            rw [htimed, if_pos rfl] at hwhy
            exact ⟨fun he => absurd (show (0 : Int) = 1 from he) (by decide), fun _ => hwhy⟩
          | false =>
            rw [htimed, if_neg Bool.false_ne_true] at hwhy
            exact ⟨fun _ => hwhy, fun he => absurd (show (1 : Int) = 0 from he) (by decide)⟩
  · cases hs'

/-! ## The end of `run_one` -/

theorem Inv.yielded (h : Inv s) (hplace : s.place = .yielded f) :
    Phase (s.fiber f) .yielded (f ∈ s.ready) (f ∈ s.waiting) := by
  have hphase := h.phase f
  rwa [PhaseOf, hplace, stage_yielded] at hphase

/-- It has yielded for no suspension, or its function has returned. -/
structure Yields (x : Fiber) (ready waiting : Prop) : Prop where
  spawned : x.spawned = true
  state : x.schedState = .RUNNING
  pending : x.pendingResume = false
  job : x.jobOpen = false
  code : x.code = .free
  answer : x.answer = .nothing
  timed : x.ioTimedOut = false
  ready : ¬ ready
  waiting : ¬ waiting

/-- It has yielded for a suspension. -/
structure Switched (x : Fiber) (ready waiting : Prop) : Prop where
  code : x.code.behind = true
  spawned : x.spawned = true
  done : x.done = false
  state : x.schedState = .SUSPENDING
  timed : x.ioTimedOut = false
  pending : Pending x
  ready : ¬ ready
  waiting : waiting

theorem Phase.of_yielded (h : Phase x .yielded ready waiting) :
    Yields x ready waiting ∨ Switched x ready waiting := by
  cases h with
  | yielded hspawned hstate hpending hjob hcode hanswer htimed _ hready hwaiting =>
    exact Or.inl ⟨hspawned, hstate, hpending, hjob, hcode, hanswer, htimed, hready, hwaiting⟩
  | suspending hspawned hdone hstate htimed hpending hwhere hready hwaiting =>
    rcases hwhere with ⟨hstage, _⟩ | ⟨_, hbehind⟩
    · cases hstage
    · exact Or.inr ⟨hbehind, hspawned, hdone, hstate, htimed, hpending, hready, hwaiting⟩
  | running _ _ _ _ _ _ hstage => cases hstage
  | posted _ _ _ _ _ _ hstage => cases hstage
  | ready _ _ _ _ _ _ hwhere => rcases hwhere with ⟨hstage, _⟩ | ⟨hstage, _⟩ <;> cases hstage
  | fresh _ hstage => cases hstage
  | waiting _ _ _ _ _ _ _ hstage => cases hstage
  | done _ _ _ _ hstage => cases hstage

/-- `run_one` is at its end. -/
theorem moved_settled {s' : State F} (hyielded : s.place = .yielded f)
    (hfiber : s'.fiber = Function.update s.fiber f x) (hplace : s'.place = .between)
    (hready : s'.ready = s.ready ∨ s'.ready = s.ready ++ [f])
    (hwaiting : s'.waiting = s.waiting ∨ s'.waiting = s.waiting.erase f) : Moved s s' f where
  fiber := fun _ hg => hfiber ▸ Function.update_of_ne hg ..
  stage := by
    intro g hg
    rw [hplace, hyielded, stage_of_ne_of_holds (Or.inr (Or.inr rfl)) hg]
    rfl
  ready := by
    intro g hg
    rcases hready with he | he
    · rw [he]
    · rw [he, mem_append_of_ne _ hg]
  waiting := by
    intro g hg
    rcases hwaiting with he | he
    · rw [he]
    · rw [he, List.mem_erase_of_ne hg]

/-- Who is not in `pool_waiters_` is not taken from there. -/
theorem Pooled.erase (h : Pooled s) (hanswer : (s.fiber f).answer ≠ .pool) :
    s.poolWaiters.erase f = s.poolWaiters :=
  List.erase_of_not_mem fun hm => hanswer ((h.mem f).mp hm)

theorem Inv.settle (h : Inv s) (hplace : s.place = .yielded f) : Inv (settle s f) := by
  rw [Fibers.settle]
  dsimp only
  rcases (h.yielded hplace).of_yielded with hyields | hswitched
  · have hpool := h.pooled.erase (f := f) (hyields.answer.trans_ne nofun)
    have hready : f ∉ s.ready := hyields.ready
    split
    · refine ⟨Moved.phases (s := s) (moved_settled hplace rfl rfl (Or.inl rfl) (Or.inr rfl)) h.phase
        ?_, h.ready, h.waiting.erase f, ?_, ?_, h.results⟩
      · refine phaseOf_of set_fiber_self rfl ?_
        refine .done hyields.spawned rfl hyields.answer hyields.job rfl hready ?_
        exact fun hm => hyields.waiting (List.mem_of_mem_erase hm)
      · exact Pooled.congr (s := s.set f { s.fiber f with
          schedState := .DONE, pendingResume := false }) (h.pooled.set Iff.rfl) hpool rfl
      · exact Wired.congr (s := s.set f { s.fiber f with
          schedState := .DONE, pendingResume := false }) (h.wired.set_same rfl rfl rfl) rfl rfl rfl
          rfl (Or.inr trivial)
    · rename_i hdone
      have hstate : (s.fiber f).schedState ≠ .SUSPENDING := hyields.state.trans_ne nofun
      rw [if_neg hstate]
      refine ⟨Moved.phases (s := s) (moved_settled hplace rfl rfl (Or.inr rfl) (Or.inl rfl)) h.phase
        ?_, nodup_append _ h.ready hready, h.waiting, ?_, ?_, h.results⟩
      · refine phaseOf_of set_fiber_self rfl ?_
        exact .ready hyields.spawned (Bool.not_eq_true _ ▸ hdone) rfl rfl hyields.job
          (.free hyields.code hyields.answer hyields.timed)
          (Or.inl ⟨rfl, List.mem_append_right _ List.mem_cons_self⟩) hyields.waiting
      · exact Pooled.congr (s := s.set f { s.fiber f with
          schedState := .READY, pendingResume := false }) (h.pooled.set Iff.rfl) rfl rfl
      · exact Wired.congr (s := s.set f { s.fiber f with
          schedState := .READY, pendingResume := false }) (h.wired.set_same rfl rfl rfl) rfl rfl rfl
          rfl (Or.inr trivial)
  · have hready : f ∉ s.ready := hswitched.ready
    rw [if_neg (hswitched.done ▸ Bool.false_ne_true), if_pos hswitched.state]
    cases hswitched.pending with
    | early hcode hearly =>
      have hpool := h.pooled.erase (f := f) (hearly.answer.trans_ne nofun)
      have hsuspended : (s.fiber f).code = .suspended := by
        have hbehind := hswitched.code
        cases hc : (s.fiber f).code with
        | suspended => rfl
        | waits key => exact (absurd_code hcode hc rfl).elim
        | _ => exact (absurd_code hbehind hc rfl).elim
      rw [if_pos hearly.pending]
      refine ⟨Moved.phases (s := s) (moved_settled hplace rfl rfl (Or.inr rfl) (Or.inr rfl)) h.phase
        ?_, nodup_append _ h.ready hready, h.waiting.erase f, ?_, ?_, h.results⟩
      · refine phaseOf_of set_fiber_self rfl ?_
        exact .ready hswitched.spawned hswitched.done rfl rfl hearly.job
          (.suspended hsuspended hearly.answer hswitched.timed)
          (Or.inl ⟨rfl, List.mem_append_right _ List.mem_cons_self⟩) h.waiting.not_mem_erase
      · exact Pooled.congr (s := s.set f { s.fiber f with
          schedState := .READY, pendingResume := false }) (h.pooled.set Iff.rfl) hpool rfl
      · exact Wired.congr (s := s.set f { s.fiber f with
          schedState := .READY, pendingResume := false }) (h.wired.set_same rfl rfl rfl) rfl rfl rfl
          rfl (Or.inr trivial)
    | later hpending hopen =>
      rw [if_neg (hpending ▸ Bool.false_ne_true)]
      refine ⟨Moved.phases (s := s) (moved_settled hplace rfl rfl (Or.inl rfl) (Or.inl rfl)) h.phase
        ?_, h.ready, h.waiting, ?_, ?_, h.results⟩
      · refine phaseOf_of set_fiber_self rfl ?_
        refine .waiting hswitched.spawned hswitched.done rfl hpending hswitched.timed ?_
          hswitched.code rfl hready hswitched.waiting
        cases hopen with
        | owed hcode hanswer => exact .owed hcode hanswer
        | pool hcode hanswer hjob => exact .pool hcode hanswer hjob
        | fd key hcode hanswer hjob => exact .fd key hcode hanswer hjob
        | found key hcode hanswer hjob hwhy => exact .found key hcode hanswer hjob hwhy
        | expired key hcode hanswer hjob hwhy => exact .expired key hcode hanswer hjob hwhy
      · exact Pooled.congr (s := s.set f { s.fiber f with schedState := .WAITING })
          (h.pooled.set Iff.rfl) rfl rfl
      · exact Wired.congr (s := s.set f { s.fiber f with schedState := .WAITING })
          (h.wired.set_same rfl rfl rfl) rfl rfl rfl rfl (Or.inr trivial)

/-! ## The start of `run_one` -/

theorem Inv.pick (h : Inv s) {rest : List F} (hplace : s.place = .between)
    (hs : s.ready = f :: rest) : Inv { s with ready := rest, place := .picked f } := by
  have hnodup := h.ready
  rw [hs, List.nodup_cons] at hnodup
  have hmoved : Moved s { s with ready := rest, place := .picked f } f := by
    refine ⟨fun _ _ => rfl, fun g hg => ?_, fun g hg => ?_, fun _ _ => Iff.rfl⟩
    · rw [hplace, stage_of_ne_of_holds (Or.inl rfl) hg]
      rfl
    · rw [hs, List.mem_cons]
      exact ⟨Or.inr, fun hm => hm.resolve_left hg⟩
  refine ⟨hmoved.phases h.phase ?_, hnodup.2, h.waiting, h.pooled.congr rfl rfl,
    h.wired.congr rfl rfl rfl rfl (Or.inr trivial), h.results⟩
  have hphase := h.phase f
  rw [PhaseOf, hplace] at hphase
  have hmem : f ∈ s.ready := hs ▸ List.mem_cons_self
  refine phaseOf_of rfl (if_pos rfl) ?_
  cases hphase with
  | ready hspawned hdone hstate hpending hjob hreturns _ hwaiting =>
    exact .ready hspawned hdone hstate hpending hjob hreturns (Or.inr ⟨rfl, hnodup.1⟩) hwaiting
  | fresh _ _ hready => exact absurd hmem hready
  | running _ _ _ _ _ _ hstage => cases hstage
  | posted _ _ _ _ _ _ hstage => cases hstage
  | suspending _ _ _ _ _ _ hready => exact absurd hmem hready
  | yielded _ _ _ _ _ _ _ hstage => cases hstage
  | waiting _ _ _ _ _ _ _ _ hready => exact absurd hmem hready
  | done _ _ _ _ _ hready => exact absurd hmem hready

theorem Inv.start (h : Inv s) (hplace : s.place = .picked f) :
    Inv { s.set f { s.fiber f with schedState := .RUNNING } with place := .running f } := by
  have hmoved : Moved s { s.set f { s.fiber f with schedState := .RUNNING } with
      place := .running f } f := by
    refine ⟨fun _ hg => set_fiber_of_ne hg, fun g hg => ?_, fun _ _ => Iff.rfl, fun _ _ => Iff.rfl⟩
    rw [hplace, stage_of_ne_of_holds (Or.inl rfl) hg,
      stage_of_ne_of_holds (Or.inr (Or.inl rfl)) hg]
  refine ⟨hmoved.phases h.phase ?_, h.ready, h.waiting, ?_, ?_, h.results⟩
  · have hphase := h.phase f
    rw [PhaseOf, hplace] at hphase
    have hstaged : (Place.picked f).stage f = .picked := if_pos rfl
    rw [hstaged] at hphase
    refine phaseOf_of set_fiber_self stage_running ?_
    cases hphase with
    | ready hspawned hdone hstate hpending hjob hreturns hwhere hwaiting =>
      have hready : f ∉ s.ready := by
        rcases hwhere with ⟨hstage, _⟩ | ⟨_, hready⟩
        · cases hstage
        · exact hready
      refine .running hspawned hdone rfl hpending hjob ?_ rfl hready hwaiting
      cases hreturns with
      | free hcode hanswer htimed => exact .free hcode hanswer htimed
      | suspended hcode hanswer htimed => exact .suspended hcode hanswer htimed
      | waited key hcode hanswer hwhy => exact .waited key hcode hanswer hwhy
    | fresh _ hstage => cases hstage
    | running _ _ _ _ _ _ hstage => cases hstage
    | posted _ _ _ _ _ _ hstage => cases hstage
    | suspending _ _ _ _ _ hwhere => rcases hwhere with ⟨hstage, _⟩ | ⟨hstage, _⟩ <;> cases hstage
    | yielded _ _ _ _ _ _ _ hstage => cases hstage
    | waiting _ _ _ _ _ _ _ hstage => cases hstage
    | done _ _ _ _ hstage => cases hstage
  · exact (h.pooled.set (x := { s.fiber f with schedState := .RUNNING }) Iff.rfl).congr rfl rfl
  · exact (h.wired.set_same (x := { s.fiber f with schedState := .RUNNING }) rfl rfl rfl).congr
      rfl rfl rfl rfl (Or.inr trivial)

/-! ## `resume_fiber` -/

/-- The fiber waits. -/
structure Waits (x : Fiber) (stage : Stage) (ready waiting : Prop) : Prop where
  spawned : x.spawned = true
  done : x.done = false
  pending : x.pendingResume = false
  timed : x.ioTimedOut = false
  isOpen : Open x
  code : x.code.behind = true
  stage : stage = .away
  ready : ¬ ready
  waiting : waiting

variable {stage : Stage}

theorem Phase.waits (h : Phase x stage ready waiting) (hstate : x.schedState = .WAITING) :
    Waits x stage ready waiting := by
  cases h with
  | waiting hspawned hdone _ hpending htimed hopen hcode hstage hready hwaiting =>
    exact ⟨hspawned, hdone, hpending, htimed, hopen, hcode, hstage, hready, hwaiting⟩
  | fresh hx =>
    rw [hx] at hstate
    cases hstate
  | ready _ _ hstate' => exact absurd (hstate.symm.trans hstate') nofun
  | running _ _ hstate' => exact absurd (hstate.symm.trans hstate') nofun
  | posted _ _ hstate' => exact absurd (hstate.symm.trans hstate') nofun
  | suspending _ _ hstate' => exact absurd (hstate.symm.trans hstate') nofun
  | yielded _ hstate' => exact absurd (hstate.symm.trans hstate') nofun
  | done _ hstate' => exact absurd (hstate.symm.trans hstate') nofun

theorem resumeFiber_of_waiting (hstate : (s.fiber f).schedState = .WAITING)
    (hdone : (s.fiber f).done = false) :
    resumeFiber s f = { s.set f { s.fiber f with schedState := .READY, answer := .given } with
      waiting := s.waiting.erase f, ready := s.ready ++ [f] } := by
  rw [resumeFiber]
  dsimp only
  rw [if_pos hstate, if_neg (hdone ▸ Bool.false_ne_true)]
  rfl

theorem resumeFiber_of_not_waiting (hstate : (s.fiber f).schedState ≠ .WAITING) :
    resumeFiber s f = s.set f { s.fiber f with pendingResume := true, answer := .given } := by
  rw [resumeFiber]
  dsimp only
  rw [if_neg hstate]

/-- A fiber that waits is made ready. -/
theorem Inv.wake (h : Inv s) (hstate : (s.fiber f).schedState = .WAITING)
    (hanswer : (s.fiber f).answer ≠ .pool) (hfiber : s'.fiber = Function.update s.fiber f x)
    (hspawned : x.spawned = true) (hdone : x.done = false) (hx : x.schedState = .READY)
    (hpending : x.pendingResume = false) (hjob : x.jobOpen = false) (hgiven : x.answer = .given)
    (hreturns : Returns x) (hready : s'.ready = s.ready ++ [f])
    (hwaiting : s'.waiting = s.waiting.erase f)
    (hstage : ∀ g, s'.place.stage g = s.place.stage g) (hpool : s'.poolWaiters = s.poolWaiters)
    (hwired : Wired s') (hresults : s'.results = s.results) : Inv s' := by
  have hwaits := (h.phase f).waits hstate
  have hmoved : Moved s s' f := by
    refine ⟨fun _ hg => hfiber ▸ Function.update_of_ne hg .., fun g _ => hstage g, ?_, ?_⟩
    · intro g hg
      rw [hready, mem_append_of_ne _ hg]
    · intro g hg
      rw [hwaiting, List.mem_erase_of_ne hg]
  refine ⟨hmoved.phases h.phase ?_, hready ▸ nodup_append _ h.ready hwaits.ready,
    hwaiting ▸ h.waiting.erase f, ?_, hwired, fun r hr => h.results r (hresults ▸ hr)⟩
  · refine phaseOf_of (hfiber ▸ Function.update_self ..) ((hstage f).trans hwaits.stage) ?_
    refine .ready hspawned hdone hx hpending hjob hreturns (Or.inl ⟨rfl, ?_⟩) ?_
    · exact hready ▸ List.mem_append_right _ List.mem_cons_self
    · exact hwaiting ▸ h.waiting.not_mem_erase
  · refine Pooled.congr (s := s.set f x) (h.pooled.set_off hanswer ?_) hpool hfiber
    exact hgiven.trans_ne nofun

/-- Who owes an answer gives it. -/
theorem Inv.resume (h : Inv s) (howed : (s.fiber f).answer = .owed)
    (hjob : (s.fiber f).jobOpen = false) : Inv (resumeFiber s f) := by
  have hpool : (s.fiber f).answer ≠ .pool := howed.trans_ne nofun
  have hoff : (s.fiber f).answer.offWire = true := congrArg Answer.offWire howed
  by_cases hstate : (s.fiber f).schedState = .WAITING
  · have hwaits := (h.phase f).waits hstate
    have hsuspended : (s.fiber f).code = .suspended := by
      cases hwaits.isOpen with
      | owed hcode _ =>
        have hbehind := hwaits.code
        cases hc : (s.fiber f).code with
        | suspended => rfl
        | waits key => exact (absurd_code hcode hc rfl).elim
        | _ => exact (absurd_code hbehind hc rfl).elim
      | pool _ hanswer => exact absurd (howed.symm.trans hanswer) nofun
      | fd _ _ hanswer => exact absurd (howed.symm.trans hanswer) nofun
      | found _ _ hanswer => exact absurd (howed.symm.trans hanswer) nofun
      | expired _ _ hanswer => exact absurd (howed.symm.trans hanswer) nofun
    rw [resumeFiber_of_waiting hstate hwaits.done]
    refine h.wake hstate hpool rfl hwaits.spawned hwaits.done rfl hwaits.pending hjob rfl
      (.suspended hsuspended rfl hwaits.timed) rfl rfl (fun _ => rfl) rfl ?_ rfl
    exact Wired.congr (s := s.set f { s.fiber f with schedState := .READY, answer := .given })
      (h.wired.set_off hoff rfl) rfl rfl rfl rfl (Or.inl rfl)
  · rw [resumeFiber_of_not_waiting hstate]
    refine ⟨moved_set.phases h.phase ?_, h.ready, h.waiting, h.pooled.set_off hpool nofun,
      h.wired.set_off hoff rfl, h.results⟩
    refine phaseOf_of set_fiber_self rfl ?_
    show Phase _ (s.place.stage f) (f ∈ s.ready) (f ∈ s.waiting)
    have hno : ∀ {a : Answer}, (s.fiber f).answer = a → a ≠ .owed → False :=
      fun he hne => hne (he.symm.trans howed)
    cases h.phase f with
    | posted hspawned hdone hrunning hcode htimed hanswer hstage hready hwaiting =>
      exact .posted hspawned hdone hrunning hcode htimed (Or.inr ⟨rfl, rfl, hjob⟩) hstage hready
        hwaiting
    | suspending hspawned hdone hsuspending htimed hpending hwhere hready hwaiting =>
      refine .suspending hspawned hdone hsuspending htimed ?_ hwhere hready hwaiting
      cases hpending with
      | early hcode hearly => exact (hno hearly.answer nofun).elim
      | later _ hopen =>
        cases hopen with
        | owed hcode _ => exact .early hcode ⟨rfl, rfl, hjob⟩
        | pool _ hanswer => exact (hno hanswer nofun).elim
        | fd _ _ hanswer => exact (hno hanswer nofun).elim
        | found _ _ hanswer => exact (hno hanswer nofun).elim
        | expired _ _ hanswer => exact (hno hanswer nofun).elim
    | fresh hx => exact (hno (congrArg Fiber.answer hx) nofun).elim
    | ready _ _ _ _ _ hreturns =>
      cases hreturns with
      | free _ hanswer => exact (hno hanswer nofun).elim
      | suspended _ hanswer => exact (hno hanswer nofun).elim
      | waited _ _ hanswer => exact (hno hanswer nofun).elim
    | running _ _ _ _ _ hreturns =>
      cases hreturns with
      | free _ hanswer => exact (hno hanswer nofun).elim
      | suspended _ hanswer => exact (hno hanswer nofun).elim
      | waited _ _ hanswer => exact (hno hanswer nofun).elim
    | yielded _ _ _ _ _ hanswer => exact (hno hanswer nofun).elim
    | waiting _ _ hwaiting => exact absurd hwaiting hstate
    | done _ _ hanswer => exact (hno hanswer nofun).elim

/-! ## Who has the answer -/

/-- The answer is to come. -/
def Answer.toCome : Answer → Bool
  | .nothing | .given => false
  | _ => true

/-- The two values of a fiber differ only in what concerns the answer. -/
structure SameBody (x y : Fiber) : Prop where
  spawned : y.spawned = x.spawned
  state : y.schedState = x.schedState
  pending : y.pendingResume = x.pendingResume
  timed : y.ioTimedOut = x.ioTimedOut
  done : y.done = x.done
  code : y.code = x.code

/-- An answer that is to come passes into other hands. -/
theorem Phase.pass {y : Fiber} (h : Phase x stage ready waiting) (htocome : x.answer.toCome = true)
    (hsame : SameBody x y) (hopen : Open x → Open y) (howed : x.answer = .owed → y.answer = .owed) :
    Phase y stage ready waiting := by
  have hno : ∀ {a : Answer}, x.answer = a → a.toCome = false → False := by
    intro a he hf
    rw [he, hf] at htocome
    cases htocome
  cases h with
  | fresh hx => exact (hno (congrArg Fiber.answer hx) rfl).elim
  | ready _ _ _ _ _ hreturns =>
    cases hreturns with
    | free _ hanswer => exact (hno hanswer rfl).elim
    | suspended _ hanswer => exact (hno hanswer rfl).elim
    | waited _ _ hanswer => exact (hno hanswer rfl).elim
  | running _ _ _ _ _ hreturns =>
    cases hreturns with
    | free _ hanswer => exact (hno hanswer rfl).elim
    | suspended _ hanswer => exact (hno hanswer rfl).elim
    | waited _ _ hanswer => exact (hno hanswer rfl).elim
  | yielded _ _ _ _ _ hanswer => exact (hno hanswer rfl).elim
  | done _ _ hanswer => exact (hno hanswer rfl).elim
  | posted hspawned hdone hstate hcode htimed hanswer hstage hready hwaiting =>
    rcases hanswer with ⟨hanswer, hpending⟩ | hearly
    · exact .posted (hsame.spawned.trans hspawned) (hsame.done.trans hdone)
        (hsame.state.trans hstate) (hsame.code.trans hcode) (hsame.timed.trans htimed)
        (Or.inl ⟨howed hanswer, hsame.pending.trans hpending⟩) hstage hready hwaiting
    · exact (hno hearly.answer rfl).elim
  | suspending hspawned hdone hstate htimed hpending hwhere hready hwaiting =>
    cases hpending with
    | early _ hearly => exact (hno hearly.answer rfl).elim
    | later hpending hx =>
      exact .suspending (hsame.spawned.trans hspawned) (hsame.done.trans hdone)
        (hsame.state.trans hstate) (hsame.timed.trans htimed)
        (.later (hsame.pending.trans hpending) (hopen hx)) (hsame.code ▸ hwhere) hready hwaiting
  | waiting hspawned hdone hstate hpending htimed hx hcode hstage hready hwaiting =>
    exact .waiting (hsame.spawned.trans hspawned) (hsame.done.trans hdone)
      (hsame.state.trans hstate) (hsame.pending.trans hpending) (hsame.timed.trans htimed)
      (hopen hx) (hsame.code ▸ hcode) hstage hready hwaiting

/-- A fiber whose answer is with a wait for a descriptor is in `wait_readable_tmo`. -/
theorem Phase.waiting_of_offWire (h : Phase x .away ready waiting)
    (hanswer : x.answer.offWire = false) : x.schedState = .WAITING := by
  have hno : ∀ {a : Answer}, x.answer = a → a.offWire = true → False := by
    intro a he hf
    rw [he, hf] at hanswer
    cases hanswer
  cases h with
  | waiting _ _ hstate => exact hstate
  | fresh hx => exact (hno (congrArg Fiber.answer hx) rfl).elim
  | ready _ _ _ _ _ hreturns =>
    cases hreturns with
    | free _ hanswer => exact (hno hanswer rfl).elim
    | suspended _ hanswer => exact (hno hanswer rfl).elim
    | waited _ _ hanswer => exact (hno hanswer rfl).elim
  | running _ _ _ _ _ _ hstage => cases hstage
  | posted _ _ _ _ _ _ hstage => cases hstage
  | suspending _ _ _ _ _ hwhere => rcases hwhere with ⟨hstage, _⟩ | ⟨hstage, _⟩ <;> cases hstage
  | yielded _ _ _ _ _ _ _ hstage => cases hstage
  | done _ _ hanswer => exact (hno hanswer rfl).elim

theorem Inv.jobDone (h : Inv s) (hjob : (s.fiber f).jobOpen = true) :
    Inv (s.set f { s.fiber f with jobOpen := false }) := by
  have hno : (s.fiber f).jobOpen = false → False := fun he => by
    rw [he] at hjob
    cases hjob
  have howed : (s.fiber f).answer = .owed := by
    have hofOpen : Open (s.fiber f) → (s.fiber f).answer = .owed := by
      intro hopen
      cases hopen with
      | owed _ hanswer => exact hanswer
      | pool _ _ hjob => exact (hno hjob).elim
      | fd _ _ _ hjob => exact (hno hjob).elim
      | found _ _ _ hjob => exact (hno hjob).elim
      | expired _ _ _ hjob => exact (hno hjob).elim
    cases h.phase f with
    | posted _ _ _ _ _ hanswer =>
      exact hanswer.elim And.left fun hearly => (hno hearly.job).elim
    | suspending _ _ _ _ hpending =>
      cases hpending with
      | later _ hopen => exact hofOpen hopen
      | early _ hearly => exact (hno hearly.job).elim
    | waiting _ _ _ _ _ hopen => exact hofOpen hopen
    | fresh hx => exact (hno (congrArg Fiber.jobOpen hx)).elim
    | ready _ _ _ _ hjob => exact (hno hjob).elim
    | running _ _ _ _ hjob => exact (hno hjob).elim
    | yielded _ _ _ hjob => exact (hno hjob).elim
    | done _ _ _ hjob => exact (hno hjob).elim
  refine ⟨moved_set.phases h.phase ?_, h.ready, h.waiting, h.pooled.set Iff.rfl,
    h.wired.set_same rfl rfl rfl, h.results⟩
  refine phaseOf_of set_fiber_self rfl ((h.phase f).pass (congrArg Answer.toCome howed)
    ⟨rfl, rfl, rfl, rfl, rfl, rfl⟩ (fun hopen => ?_) fun _ => howed)
  cases hopen with
  | owed hcode hanswer => exact .owed hcode hanswer
  | pool hcode hanswer hjob => exact .pool hcode hanswer rfl
  | fd key hcode hanswer hjob => exact .fd key hcode hanswer rfl
  | found key hcode hanswer hjob hwhy => exact .found key hcode hanswer rfl hwhy
  | expired key hcode hanswer hjob hwhy => exact .expired key hcode hanswer rfl hwhy

/-- `notify_pool_waiter` takes the answer of the first one. -/
theorem Inv.notify (h : Inv s) {rest : List F} (hs : s.poolWaiters = f :: rest) :
    Inv { s.set f { s.fiber f with answer := .owed } with poolWaiters := rest } := by
  have hpool : (s.fiber f).answer = .pool := (h.pooled.mem f).mp (hs ▸ List.mem_cons_self)
  have hnodup := h.pooled.nodup
  rw [hs, List.nodup_cons] at hnodup
  have hmoved : Moved s { s.set f { s.fiber f with answer := .owed } with
      poolWaiters := rest } f :=
    ⟨fun _ hg => set_fiber_of_ne hg, fun _ _ => rfl, fun _ _ => Iff.rfl, fun _ _ => Iff.rfl⟩
  refine ⟨hmoved.phases h.phase ?_, h.ready, h.waiting, ⟨hnodup.2, fun g => ?_⟩, ?_, h.results⟩
  · refine phaseOf_of set_fiber_self rfl ((h.phase f).pass (congrArg Answer.toCome hpool)
      ⟨rfl, rfl, rfl, rfl, rfl, rfl⟩ (fun hopen => ?_) fun _ => rfl)
    cases hopen with
    | pool hcode _ _ => exact .owed hcode rfl
    | owed _ hanswer => exact absurd (hpool.symm.trans hanswer) nofun
    | fd _ _ hanswer => exact absurd (hpool.symm.trans hanswer) nofun
    | found _ _ hanswer => exact absurd (hpool.symm.trans hanswer) nofun
    | expired _ _ hanswer => exact absurd (hpool.symm.trans hanswer) nofun
  · show g ∈ rest ↔ ((s.set f _).fiber g).answer = .pool
    by_cases hg : g = f
    · subst hg
      rw [set_fiber_self]
      exact iff_of_false hnodup.1 nofun
    · rw [set_fiber_of_ne hg, ← h.pooled.mem g, hs, List.mem_cons]
      exact ⟨Or.inr, fun hm => hm.resolve_left hg⟩
  · exact Wired.congr (s := s.set f { s.fiber f with answer := .owed })
      (h.wired.set_off (congrArg Answer.offWire hpool) rfl) rfl rfl rfl rfl (Or.inl rfl)

theorem Inv.spawn (h : Inv s) (hspawned : (s.fiber f).spawned = false) :
    Inv { s.set f { s.fiber f with spawned := true } with ready := s.ready ++ [f] } := by
  have hno : (s.fiber f).spawned = true → False := fun he => by
    rw [hspawned] at he
    cases he
  have hfresh : s.fiber f = .fresh ∧ s.place.stage f = .away ∧ f ∉ s.ready ∧ f ∉ s.waiting := by
    cases h.phase f with
    | fresh hx hstage hready hwaiting => exact ⟨hx, hstage, hready, hwaiting⟩
    | ready hspawned => exact (hno hspawned).elim
    | running hspawned => exact (hno hspawned).elim
    | posted hspawned => exact (hno hspawned).elim
    | suspending hspawned => exact (hno hspawned).elim
    | yielded hspawned => exact (hno hspawned).elim
    | waiting hspawned => exact (hno hspawned).elim
    | done hspawned => exact (hno hspawned).elim
  obtain ⟨hx, hstage, hready, hwaiting⟩ := hfresh
  have hmoved : Moved s { s.set f { s.fiber f with spawned := true } with
      ready := s.ready ++ [f] } f :=
    ⟨fun _ hg => set_fiber_of_ne hg, fun _ _ => rfl, fun _ hg => mem_append_of_ne _ hg,
      fun _ _ => Iff.rfl⟩
  refine ⟨hmoved.phases h.phase ?_, nodup_append _ h.ready hready, h.waiting, ?_, ?_, h.results⟩
  · refine phaseOf_of set_fiber_self hstage ?_
    rw [hx]
    exact .ready rfl rfl rfl rfl rfl (.free rfl rfl rfl)
      (Or.inl ⟨rfl, List.mem_append_right _ List.mem_cons_self⟩) hwaiting
  · exact Pooled.congr (s := s.set f { s.fiber f with spawned := true }) (h.pooled.set Iff.rfl)
      rfl rfl
  · exact Wired.congr (s := s.set f { s.fiber f with spawned := true })
      (h.wired.set_same rfl rfl rfl) rfl rfl rfl rfl (Or.inl rfl)

theorem Inv.tick (h : Inv s) : Inv { s with now := s.now + 1 } :=
  ⟨h.phase, h.ready, h.waiting, h.pooled.congr rfl rfl, h.wired.congr rfl rfl rfl rfl (Or.inl rfl),
    h.results⟩

/-! ## epoll and the deadlines -/

theorem Inv.away (h : Inv s) (hplace : s.place.stage f = .away) :
    Phase (s.fiber f) .away (f ∈ s.ready) (f ∈ s.waiting) := by
  have hphase := h.phase f
  rwa [PhaseOf, hplace] at hphase

/-- The scheduler gives an answer that it has in its hands. -/
theorem Wired.give (h : Wired s) (hold : ∀ key, (s.fiber f).answer ≠ .fd key)
    (hnew : x.answer = .given) (hfiber : s'.fiber = Function.update s.fiber f x)
    (hfd : s'.fdToFiber = s.fdToFiber) (hdeadline : s'.fdDeadline = s.fdDeadline)
    (hseq : s'.timerKeySeq = s.timerKeySeq) (hfound : ∀ g fds, s'.place ≠ .found g fds)
    (hexpired : ∀ waits, s'.place = .expired waits → (waits.map Prod.snd).Nodup ∧
      ∀ p ∈ waits, p.2 ≠ f ∧ (s.fiber p.2).answer = .expired p.1)
    (hevents : ∀ key ∈ s'.place.eventsLeft, key ∈ s.place.eventsLeft) : Wired s' := by
  have hself : s'.fiber f = x := hfiber ▸ Function.update_self ..
  have hothers : ∀ g, g ≠ f → s'.fiber g = s.fiber g :=
    fun g hg => hfiber ▸ Function.update_of_ne hg ..
  have hne : ∀ {key : Int} {g : F}, s.fdToFiber key = some g → g ≠ f :=
    fun hg he => hold _ (he ▸ (h.fd _ _).mp hg)
  constructor
  · intro key g
    rw [hfd]
    by_cases hg : g = f
    · subst hg
      rw [hself, hnew]
      exact iff_of_false (fun he => hne he rfl) nofun
    · rw [hothers g hg]
      exact h.fd key g
  · exact fun g fds hp => absurd hp (hfound g fds)
  · exact fun waits hp => (hexpired waits hp).1
  · intro waits hp p hmem
    obtain ⟨hpf, hanswer⟩ := (hexpired waits hp).2 p hmem
    exact hothers p.2 hpf ▸ hanswer
  · intro key hkey g hg
    rw [hfd] at hg
    exact hothers g (hne hg) ▸ h.events key (hevents key hkey) g hg
  · exact hdeadline ▸ h.deadline_nodup
  · intro key d hd
    obtain ⟨g, hg, hgd⟩ := h.deadline key d (hdeadline ▸ hd)
    exact ⟨g, hfd ▸ hg, hothers g (hne hg) ▸ hgd⟩
  · exact hseq ▸ h.seq
  · exact fun key g hg => hseq ▸ h.keys key g (hfd ▸ hg)

/-- The code of a fiber that waits under a key. -/
theorem code_of_waitsFor {c : Code} {key : Int} (hwaits : c.waitsFor key = true)
    (hbehind : c.behind = true) : c = .waits key := by
  cases hc : c with
  | waits k =>
    rw [hc] at hwaits
    exact congrArg Code.waits (of_decide_eq_true hwaits)
  | suspended => exact (absurd_code hwaits hc rfl).elim
  | _ => exact (absurd_code hbehind hc rfl).elim

theorem Inv.resumeFound (h : Inv s) {fds : List Int} (hplace : s.place = .found f fds) :
    Inv { resumeFiber s f with place := .events fds } := by
  have hanswer := h.wired.found f fds hplace
  have hstage : ∀ g, s.place.stage g = .away := fun g => by rw [hplace]; rfl
  have hstate := (h.away (hstage f)).waiting_of_offWire (congrArg Answer.offWire hanswer)
  have hwaits := (h.phase f).waits hstate
  rw [resumeFiber_of_waiting hstate hwaits.done]
  cases hwaits.isOpen with
  | found key hcode _ hjob hdelivered =>
    refine h.wake hstate (hanswer.trans_ne nofun) rfl hwaits.spawned hwaits.done rfl hwaits.pending
      hjob rfl (.waited key (code_of_waitsFor hcode hwaits.code) rfl ?_) rfl rfl
      (fun g => (hstage g).symm) rfl ?_ rfl
    · rw [hwaits.timed]
      exact hdelivered
    · refine h.wired.give (fun key => hanswer.trans_ne nofun) rfl rfl rfl rfl rfl nofun nofun ?_
      exact fun key hkey => hplace ▸ hkey
  | owed _ hanswer' => exact absurd (hanswer.symm.trans hanswer') nofun
  | pool _ hanswer' => exact absurd (hanswer.symm.trans hanswer') nofun
  | fd _ _ hanswer' => exact absurd (hanswer.symm.trans hanswer') nofun
  | expired _ _ hanswer' => exact absurd (hanswer.symm.trans hanswer') nofun

theorem Inv.resumeExpired (h : Inv s) {key : Int} {rest : List (Int × F)} {watched : Int → Bool}
    (hplace : s.place = .expired ((key, f) :: rest)) :
    Inv { resumeFiber (s.set f { s.fiber f with ioTimedOut := true }) f with
      place := .expired rest, watched := watched } := by
  have hanswer : (s.fiber f).answer = .expired key :=
    h.wired.expired _ hplace (key, f) List.mem_cons_self
  have hnodup := h.wired.expired_nodup _ hplace
  rw [List.map_cons, List.nodup_cons] at hnodup
  have hstage : ∀ g, s.place.stage g = .away := fun g => by rw [hplace]; rfl
  have hstate := (h.away (hstage f)).waiting_of_offWire (congrArg Answer.offWire hanswer)
  have hwaits := (h.phase f).waits hstate
  have hset : (s.set f { s.fiber f with ioTimedOut := true }).fiber f =
      { s.fiber f with ioTimedOut := true } := set_fiber_self
  rw [resumeFiber_of_waiting (by rw [hset]; exact hstate) (by rw [hset]; exact hwaits.done), hset]
  cases hwaits.isOpen with
  | expired key' hcode _ hjob hexpired =>
    refine h.wake (x := { s.fiber f with
        ioTimedOut := true, schedState := .READY, answer := .given }) hstate
      (hanswer.trans_ne nofun) (Function.update_idem ..) hwaits.spawned hwaits.done rfl
      hwaits.pending hjob rfl (.waited key' (code_of_waitsFor hcode hwaits.code) rfl hexpired) rfl
      rfl (fun g => (hstage g).symm) rfl ?_ rfl
    refine h.wired.give (fun key => hanswer.trans_ne nofun) rfl (Function.update_idem ..) rfl rfl
      rfl nofun ?_ fun key hkey => absurd hkey List.not_mem_nil
    intro waits hp
    cases hp
    refine ⟨hnodup.2, fun p hmem => ⟨fun he => hnodup.1 ?_, ?_⟩⟩
    · have hmap : p.2 ∈ rest.map Prod.snd := List.mem_map_of_mem hmem
      exact he ▸ hmap
    · exact h.wired.expired _ hplace p (List.mem_cons_of_mem _ hmem)
  | owed _ hanswer' => exact absurd (hanswer.symm.trans hanswer') nofun
  | pool _ hanswer' => exact absurd (hanswer.symm.trans hanswer') nofun
  | fd _ _ hanswer' => exact absurd (hanswer.symm.trans hanswer') nofun
  | found _ _ hanswer' => exact absurd (hanswer.symm.trans hanswer') nofun

/-- What the delivery of events does to a fiber. -/
theorem deliver_cases (fds : List Int) (x : Fiber) : x.deliver fds = x ∨
    ∃ key, x.answer = .fd key ∧ x.deliver fds = { x with delivered := true } := by
  rw [Fiber.deliver]
  split
  · rename_i key hanswer
    split
    · exact Or.inr ⟨key, hanswer, rfl⟩
    · exact Or.inl rfl
  · exact Or.inl rfl

theorem answer_deliver (fds : List Int) (x : Fiber) : (x.deliver fds).answer = x.answer := by
  rcases deliver_cases fds x with he | ⟨_, _, he⟩ <;> rw [he]

theorem deadline_deliver (fds : List Int) (x : Fiber) : (x.deliver fds).deadline = x.deadline := by
  rcases deliver_cases fds x with he | ⟨_, _, he⟩ <;> rw [he]

theorem delivered_deliver {fds : List Int} {key : Int} (hanswer : x.answer = .fd key)
    (hkey : key ∈ fds) : (x.deliver fds).delivered = true := by
  rw [Fiber.deliver, hanswer]
  dsimp only
  rw [if_pos hkey]

theorem Phase.deliver (fds : List Int) (h : Phase x stage ready waiting) :
    Phase (x.deliver fds) stage ready waiting := by
  rcases deliver_cases fds x with he | ⟨key, hanswer, he⟩
  · rw [he]
    exact h
  · rw [he]
    refine h.pass (congrArg Answer.toCome hanswer) ⟨rfl, rfl, rfl, rfl, rfl, rfl⟩ (fun hopen => ?_)
      fun howed => absurd (hanswer.symm.trans howed) nofun
    cases hopen with
    | fd key hcode hanswer hjob => exact .fd key hcode hanswer hjob
    | owed _ hanswer' => exact absurd (hanswer.symm.trans hanswer') nofun
    | pool _ hanswer' => exact absurd (hanswer.symm.trans hanswer') nofun
    | found _ _ hanswer' => exact absurd (hanswer.symm.trans hanswer') nofun
    | expired _ _ hanswer' => exact absurd (hanswer.symm.trans hanswer') nofun

theorem Inv.poll (h : Inv s) (hplace : s.place = .between) (fds : List Int) :
    Inv { s with fiber := fun f => (s.fiber f).deliver fds, place := .events fds } := by
  refine ⟨fun f => ?_, h.ready, h.waiting, ⟨h.pooled.nodup, fun f => ?_⟩, ?_, h.results⟩
  · have hphase := h.phase f
    rw [PhaseOf, hplace] at hphase
    exact hphase.deliver fds
  · rw [answer_deliver]
    exact h.pooled.mem f
  · constructor
    · exact fun key f => (answer_deliver fds _).symm ▸ h.wired.fd key f
    · exact nofun
    · exact nofun
    · exact nofun
    · exact fun key hkey f hf => delivered_deliver ((h.wired.fd key f).mp hf) hkey
    · exact h.wired.deadline_nodup
    · intro key d hd
      obtain ⟨f, hf, hfd⟩ := h.wired.deadline key d hd
      exact ⟨f, hf, (deadline_deliver fds _).trans hfd⟩
    · exact h.wired.seq
    · exact h.wired.keys

theorem Inv.endSweep (h : Inv s) (hplace : s.place = .expired []) :
    Inv { s with place := .between } := by
  have hmoved : ∀ g, PhaseOf { s with place := .between } g := by
    intro g
    have hphase := h.phase g
    rw [PhaseOf, hplace] at hphase
    exact hphase
  exact ⟨hmoved, h.ready, h.waiting, h.pooled.congr rfl rfl,
    h.wired.congr rfl rfl rfl rfl (Or.inr trivial), h.results⟩

theorem Inv.event (h : Inv s) {fd : Int} {fds : List Int} (hplace : s.place = .events (fd :: fds)) :
    Inv (event s fd fds) := by
  have hstage : ∀ g, s.place.stage g = .away := fun g => by rw [hplace]; rfl
  have hleft : ∀ {key : Int}, key ∈ fds → key ∈ s.place.eventsLeft := fun hkey =>
    hplace ▸ List.mem_cons_of_mem _ hkey
  rw [Fibers.event]
  dsimp only
  split
  · rename_i f hf
    have hanswer := (h.wired.fd fd f).mp hf
    have hdelivered := h.wired.events fd (hplace ▸ List.mem_cons_self) f hf
    have hne : ∀ {key : Int} {g : F}, s.fdToFiber key = some g → key ≠ fd → g ≠ f := by
      intro key g hg hk he
      have hsame := (h.wired.fd key g).mp hg
      rw [he, hanswer] at hsame
      cases hsame
      exact hk rfl
    have hmap : ∀ key, Function.update s.fdToFiber fd none key =
        if key = fd then none else s.fdToFiber key := by
      intro key
      by_cases hk : key = fd
      · rw [hk, Function.update_self, if_pos rfl]
      · rw [Function.update_of_ne hk, if_neg hk]
    have hmoved : ∀ {s' : State F}, s'.fiber = (s.set f { s.fiber f with answer := .found }).fiber →
        s'.place = .found f fds → s'.ready = s.ready → s'.waiting = s.waiting → Moved s s' f := by
      intro s' hfiber hp hready hwaiting
      refine ⟨fun g hg => hfiber ▸ set_fiber_of_ne hg, fun g _ => ?_, fun _ _ => by rw [hready],
        fun _ _ => by rw [hwaiting]⟩
      rw [hp, hplace]
      rfl
    refine ⟨Moved.phases (s := s) (hmoved rfl rfl rfl rfl) h.phase ?_, h.ready, h.waiting, ?_, ?_,
      h.results⟩
    · refine phaseOf_of set_fiber_self rfl ?_
      refine (h.away (hstage f)).pass (congrArg Answer.toCome hanswer)
        ⟨rfl, rfl, rfl, rfl, rfl, rfl⟩ (fun hopen => ?_)
        fun howed => absurd (hanswer.symm.trans howed) nofun
      cases hopen with
      | fd key hcode _ hjob => exact .found key hcode rfl hjob hdelivered
      | owed _ hanswer' => exact absurd (hanswer.symm.trans hanswer') nofun
      | pool _ hanswer' => exact absurd (hanswer.symm.trans hanswer') nofun
      | found _ _ hanswer' => exact absurd (hanswer.symm.trans hanswer') nofun
      | expired _ _ hanswer' => exact absurd (hanswer.symm.trans hanswer') nofun
    · exact Pooled.congr (s := s.set f { s.fiber f with answer := .found })
        (h.pooled.set_off (hanswer.trans_ne nofun) nofun) rfl rfl
    · have hfiber : ∀ g, g ≠ f → (s.set f { s.fiber f with answer := .found }).fiber g = s.fiber g :=
        fun g hg => set_fiber_of_ne hg
      constructor
      · intro key g
        show Function.update s.fdToFiber fd none key = some g ↔
          ((s.set f { s.fiber f with answer := .found }).fiber g).answer = .fd key
        rw [hmap]
        by_cases hg : g = f
        · subst hg
          rw [set_fiber_self]
          refine iff_of_false (fun he => ?_) nofun
          split at he
          · cases he
          · rename_i hk
            exact hne he hk rfl
        · rw [hfiber g hg, ← h.wired.fd key g]
          split
          · rename_i hk
            refine iff_of_false nofun fun he => hg ?_
            rw [hk, hf] at he
            exact (Option.some.inj he).symm
          · rfl
      · intro g fds' hp
        cases hp
        exact congrArg Fiber.answer set_fiber_self
      · exact nofun
      · exact nofun
      · intro key hkey g hg
        have hg' : Function.update s.fdToFiber fd none key = some g := hg
        rw [hmap] at hg'
        split at hg'
        · cases hg'
        · rename_i hk
          show ((s.set f { s.fiber f with answer := .found }).fiber g).delivered = true
          rw [hfiber g (hne hg' hk)]
          exact h.wired.events key (hleft hkey) g hg'
      · exact SortedMap.nodup_erase h.wired.deadline_nodup
      · intro key d hd
        obtain ⟨hd, hk⟩ := SortedMap.mem_erase.mp hd
        obtain ⟨g, hg, hgd⟩ := h.wired.deadline key d hd
        refine ⟨g, ?_, ?_⟩
        · exact (hmap key).trans ((if_neg hk).trans hg)
        · show ((s.set f { s.fiber f with answer := .found }).fiber g).deadline = some d
          rw [hfiber g (hne hg hk)]
          exact hgd
      · exact h.wired.seq
      · intro key g hg
        have hg' : Function.update s.fdToFiber fd none key = some g := hg
        rw [hmap] at hg'
        split at hg'
        · cases hg'
        · exact h.wired.keys key g hg'
  · rename_i hnone
    have hphase : ∀ g, PhaseOf { s with
        watched := Function.update s.watched fd false, fdDeadline := SortedMap.erase fd s.fdDeadline,
        place := .events fds } g := fun g => phaseOf_of rfl rfl (h.away (hstage g))
    refine ⟨hphase, h.ready, h.waiting, h.pooled.congr rfl rfl, ?_, h.results⟩
    refine ⟨h.wired.fd, nofun, nofun, nofun, fun key hkey => h.wired.events key (hleft hkey),
      SortedMap.nodup_erase h.wired.deadline_nodup, ?_, h.wired.seq, h.wired.keys⟩
    exact fun key d hd => h.wired.deadline key d (SortedMap.mem_erase.mp hd).1

omit [DecidableEq F] in
/-- A key is due when its deadline is over. -/
theorem mem_due {key : Int} : key ∈ s.due ↔ ∃ d, (key, d) ∈ s.fdDeadline ∧ d ≤ s.now := by
  rw [State.due, List.mem_map]
  refine ⟨fun h => ?_, fun h => ?_⟩
  · obtain ⟨⟨k, d⟩, hmem, rfl⟩ := h
    obtain ⟨hmem, hd⟩ := List.mem_filter.mp hmem
    exact ⟨d, hmem, of_decide_eq_true hd⟩
  · obtain ⟨d, hmem, hd⟩ := h
    exact ⟨(key, d), List.mem_filter.mpr ⟨hmem, decide_eq_true hd⟩, rfl⟩

/-- What the sweep does to a fiber. -/
theorem sweep_cases (now : Nat) (due : List Int) (x : Fiber) :
    (x.sweep now due = x ∧ ∀ key ∈ due, x.answer ≠ .fd key) ∨
    ∃ key ∈ due, x.answer = .fd key ∧ x.sweep now due =
      { x with answer := .expired key, expired := x.deadline.any fun d => decide (d ≤ now) } := by
  rw [Fiber.sweep]
  split
  · rename_i key hanswer
    split
    · rename_i hkey
      exact Or.inr ⟨key, hkey, hanswer, rfl⟩
    · rename_i hkey
      refine Or.inl ⟨rfl, fun k hk he => hkey ?_⟩
      rw [hanswer] at he
      cases he
      exact hk
  · rename_i hanswer
    exact Or.inl ⟨rfl, fun k _ he => hanswer k he⟩

/-- A wait that the sweep finds is over by its own deadline. -/
theorem Inv.deadline_of_due (h : Inv s) {key : Int} (hkey : key ∈ s.due)
    (hanswer : (s.fiber f).answer = .fd key) :
    ((s.fiber f).deadline.any fun d => decide (d ≤ s.now)) = true := by
  obtain ⟨d, hmem, hd⟩ := mem_due.mp hkey
  obtain ⟨g, hg, hgd⟩ := h.wired.deadline key d hmem
  have hsame : f = g := by
    have hf := (h.wired.fd key f).mpr hanswer
    exact Option.some.inj (hf.symm.trans hg)
  rw [hsame, hgd]
  exact decide_eq_true hd

theorem Inv.sweep (h : Inv s) (hplace : s.place = .events []) : Inv (sweep s) := by
  have hstage : ∀ g, s.place.stage g = .away := fun g => by rw [hplace]; rfl
  have hpool : ∀ g, ((s.fiber g).sweep s.now s.due).answer = .pool ↔ (s.fiber g).answer = .pool := by
    intro g
    rcases sweep_cases s.now s.due (s.fiber g) with ⟨he, _⟩ | ⟨key, _, hanswer, he⟩
    · rw [he]
    · rw [he, hanswer]
      exact iff_of_false nofun nofun
  have hfd : ∀ {key : Int} {g : F}, s.fdToFiber key = some g → key ∉ s.due →
      (s.fiber g).sweep s.now s.due = s.fiber g := by
    intro key g hg hkey
    rcases sweep_cases s.now s.due (s.fiber g) with ⟨he, _⟩ | ⟨key', hkey', hanswer, _⟩
    · exact he
    · rw [(h.wired.fd key g).mp hg] at hanswer
      cases hanswer
      exact absurd hkey' hkey
  refine ⟨fun g => phaseOf_of rfl rfl ?_, h.ready, h.waiting, ⟨h.pooled.nodup, fun g => ?_⟩, ?_,
    h.results⟩
  · have hphase := h.away (hstage g)
    rcases sweep_cases s.now s.due (s.fiber g) with ⟨he, _⟩ | ⟨key, hkey, hanswer, he⟩
    · show Phase ((s.fiber g).sweep s.now s.due) _ _ _
      rw [he]
      exact hphase
    · show Phase ((s.fiber g).sweep s.now s.due) _ _ _
      rw [he]
      refine hphase.pass (congrArg Answer.toCome hanswer) ⟨rfl, rfl, rfl, rfl, rfl, rfl⟩
        (fun hopen => ?_) fun howed => absurd (hanswer.symm.trans howed) nofun
      cases hopen with
      | fd key' hcode hanswer' hjob =>
        rw [hanswer] at hanswer'
        cases hanswer'
        exact .expired key hcode rfl hjob (h.deadline_of_due hkey hanswer)
      | owed _ hanswer' => exact absurd (hanswer.symm.trans hanswer') nofun
      | pool _ hanswer' => exact absurd (hanswer.symm.trans hanswer') nofun
      | found _ _ hanswer' => exact absurd (hanswer.symm.trans hanswer') nofun
      | expired _ _ hanswer' => exact absurd (hanswer.symm.trans hanswer') nofun
  · exact (h.pooled.mem g).trans (hpool g).symm
  · constructor
    · intro key g
      show (if key ∈ s.due then none else s.fdToFiber key) = some g ↔
        ((s.fiber g).sweep s.now s.due).answer = .fd key
      rcases sweep_cases s.now s.due (s.fiber g) with ⟨he, hno⟩ | ⟨key', hkey', hanswer, he⟩
      · rw [he]
        split
        · rename_i hkey
          exact iff_of_false nofun (hno key hkey)
        · exact h.wired.fd key g
      · rw [he]
        refine iff_of_false (fun hg => ?_) nofun
        split at hg
        · cases hg
        · rename_i hkey
          rw [(h.wired.fd key g).mp hg] at hanswer
          cases hanswer
          exact hkey hkey'
    · exact nofun
    · intro waits hp
      cases hp
      rw [List.map_filterMap]
      have hdue : s.due.Nodup := by
        have hsub : s.due.Sublist (s.fdDeadline.map Prod.fst) := List.filter_sublist.map _
        exact h.wired.deadline_nodup.sublist hsub
      refine hdue.filterMap fun key key' g hg hg' => ?_
      rw [Option.mem_def, Option.map_map, Option.map_eq_some_iff] at hg hg'
      obtain ⟨f, hf, rfl⟩ := hg
      obtain ⟨f', hf', he⟩ := hg'
      have hsame : f' = f := he
      have h1 := (h.wired.fd key f).mp hf
      have h2 := (h.wired.fd key' f').mp hf'
      rw [hsame, h1] at h2
      cases h2
      rfl
    · intro waits hp p hmem
      cases hp
      obtain ⟨key, hkey, hmap⟩ := List.mem_filterMap.mp hmem
      obtain ⟨f, hf, rfl⟩ := Option.map_eq_some_iff.mp hmap
      have hanswer := (h.wired.fd key f).mp hf
      show ((s.fiber f).sweep s.now s.due).answer = .expired key
      rcases sweep_cases s.now s.due (s.fiber f) with ⟨_, hno⟩ | ⟨key', _, hanswer', he⟩
      · exact absurd hanswer (hno key hkey)
      · rw [hanswer] at hanswer'
        cases hanswer'
        rw [he]
    · exact fun key hkey => absurd hkey List.not_mem_nil
    · exact h.wired.deadline_nodup.sublist (List.filter_sublist.map _)
    · intro key d hd
      obtain ⟨hd, hlater⟩ := List.mem_filter.mp hd
      obtain ⟨g, hg, hgd⟩ := h.wired.deadline key d hd
      have hkey : key ∉ s.due := by
        intro hkey
        have hover := h.deadline_of_due hkey ((h.wired.fd key g).mp hg)
        rw [hgd] at hover
        have hover' : decide (d ≤ s.now) = true := hover
        rw [hover'] at hlater
        cases hlater
      refine ⟨g, (if_neg hkey).trans hg, ?_⟩
      show ((s.fiber g).sweep s.now s.due).deadline = some d
      rw [hfd hg hkey]
      exact hgd
    · exact h.wired.seq
    · intro key g (hg : (if key ∈ s.due then none else s.fdToFiber key) = some g)
      split at hg
      · cases hg
      · exact h.wired.keys key g hg

/-! ## Steps and runs -/

theorem Inv.runStep {a : Action F} (h : Inv s) (hplace : s.place = .running f)
    (hok : Answers s a) (hs : runStep s f a = some s') : Inv s' := by
  cases a with
  | post offload =>
    rw [Fibers.runStep] at hs
    split at hs
    · rename_i hcode
      cases hs
      exact h.post hplace hcode offload
    · cases hs
  | suspend =>
    rw [Fibers.runStep] at hs
    split at hs
    · rename_i hcode
      cases hs
      exact h.suspend hplace hcode
    · cases hs
  | suspendForPool =>
    rw [Fibers.runStep] at hs
    split at hs
    · rename_i hcode
      cases hs
      exact h.suspendForPool hplace hcode
    · cases hs
  | waitReadable fd timeoutMs =>
    rw [Fibers.runStep] at hs
    split at hs
    · rename_i hcode
      cases hs
      rw [Answers, answers, Bool.or_eq_true, decide_eq_true_eq, Option.isNone_iff_eq_none] at hok
      exact h.waitReadable hplace hcode hok timeoutMs
    · cases hs
  | switch =>
    rw [Fibers.runStep] at hs
    dsimp only at hs
    split at hs
    · rename_i hcode
      cases hs
      exact h.switch s.watched hplace (congrArg Code.atSwitch hcode) rfl
        ((congrArg Code.suspends hcode).trans rfl)
        fun key => (congrArg (Code.waitsFor key) hcode).trans rfl
    · rename_i fd key hcode
      cases hs
      exact h.switch _ hplace (congrArg Code.atSwitch hcode) rfl
        ((congrArg Code.suspends hcode).trans rfl)
        fun key => (congrArg (Code.waitsFor key) hcode).trans rfl
    · cases hs
  | yield =>
    rw [Fibers.runStep] at hs
    split at hs
    · rename_i hcode
      cases hs
      exact h.yield hplace hcode
    · cases hs
  | finish =>
    rw [Fibers.runStep] at hs
    split at hs
    · rename_i hcode
      cases hs
      exact h.finish hplace hcode
    · cases hs
  | back => exact h.back hplace hs
  | _ => cases hs

theorem Inv.loopStep {a : Action F} (h : Inv s) (hs : loopStep s a = some s') : Inv s' := by
  cases a with
  | pick =>
    rw [Fibers.loopStep] at hs
    split at hs
    · rename_i hplace hready
      cases hs
      exact h.pick hplace hready
    · cases hs
  | start =>
    rw [Fibers.loopStep] at hs
    split at hs
    · rename_i hplace
      cases hs
      exact h.start hplace
    · cases hs
  | settle =>
    rw [Fibers.loopStep] at hs
    split at hs
    · rename_i hplace
      cases hs
      exact h.settle hplace
    · cases hs
  | poll fds =>
    rw [Fibers.loopStep] at hs
    split at hs
    · rename_i hplace
      split at hs
      · cases hs
        exact h.poll hplace fds
      · cases hs
    · cases hs
  | event =>
    rw [Fibers.loopStep] at hs
    split at hs
    · rename_i hplace
      cases hs
      exact h.event hplace
    · cases hs
  | resumeFound =>
    rw [Fibers.loopStep] at hs
    split at hs
    · rename_i hplace
      cases hs
      exact h.resumeFound hplace
    · cases hs
  | sweep =>
    rw [Fibers.loopStep] at hs
    split at hs
    · rename_i hplace
      cases hs
      exact h.sweep hplace
    · cases hs
  | resumeExpired =>
    rw [Fibers.loopStep] at hs
    split at hs
    · rename_i hplace
      cases hs
      exact h.resumeExpired hplace
    · cases hs
  | endSweep =>
    rw [Fibers.loopStep] at hs
    split at hs
    · rename_i hplace
      cases hs
      exact h.endSweep hplace
    · cases hs
  | _ => cases hs

theorem Inv.otherStep {a : Action F} (h : Inv s) (hok : Answers s a)
    (hs : otherStep s a = some s') : Inv s' := by
  cases a with
  | spawn f =>
    rw [Fibers.otherStep] at hs
    split at hs
    · cases hs
    · rename_i hspawned
      cases hs
      exact h.spawn (Bool.not_eq_true _ ▸ hspawned)
  | jobDone f =>
    rw [Fibers.otherStep] at hs
    split at hs
    · rename_i hjob
      cases hs
      exact h.jobDone hjob
    · cases hs
  | resume f =>
    cases hs
    rw [Answers, answers, Bool.and_eq_true, decide_eq_true_eq, Bool.not_eq_true'] at hok
    exact h.resume hok.1 hok.2
  | notifyPoolWaiter =>
    rw [Fibers.otherStep] at hs
    split at hs
    · cases hs
      exact h
    · rename_i hpool
      cases hs
      exact h.notify hpool
  | tick =>
    cases hs
    exact h.tick
  | _ => cases hs

/-- One step keeps the invariant. -/
theorem step_inv {a : Action F} (hs : Step s a s') (hok : Answers s a) (h : Inv s) : Inv s' := by
  rw [Step, step] at hs
  split at hs
  · rename_i f hplace
    rcases Option.or_eq_some_iff.mp hs with hs | ⟨_, hs⟩
    · exact h.runStep hplace hok hs
    · exact h.otherStep hok hs
  · rcases Option.or_eq_some_iff.mp hs with hs | ⟨_, hs⟩
    · exact h.loopStep hs
    · exact h.otherStep hok hs

theorem stage_of_holds (h : s.place.holds f) : s.place.stage f ≠ .away := by
  cases hp : s.place with
  | picked g =>
    rw [hp] at h
    exact (if_pos h).trans_ne nofun
  | running g =>
    rw [hp] at h
    exact (if_pos h).trans_ne nofun
  | yielded g =>
    rw [hp] at h
    exact (if_pos h).trans_ne nofun
  | _ =>
    rw [hp] at h
    exact False.elim h

theorem holds_of_stage (h : s.place.stage f ≠ .away) : s.place.holds f := by
  cases hp : s.place with
  | picked g =>
    rw [hp] at h
    by_contra hne
    exact h (if_neg hne)
  | running g =>
    rw [hp] at h
    by_contra hne
    exact h (if_neg hne)
  | yielded g =>
    rw [hp] at h
    by_contra hne
    exact h (if_neg hne)
  | _ =>
    rw [hp] at h
    exact absurd rfl h

/-- A fiber that goes on when it runs next has no suspension before it. -/
theorem Returns.not_unsettled (h : Returns x) (hstate : x.schedState ≠ .SUSPENDING) :
    ¬ x.Unsettled := by
  intro hun
  rcases hun with hcode | hstate'
  · rcases h.code with hcode' | hbehind
    · exact absurd (hcode.symm.trans hcode') nofun
    · exact absurd_code hbehind hcode rfl
  · exact hstate hstate'

theorem Inv.kept (h : Inv s) (hgiven : (s.fiber f).answer = .given) : f ∈ s.ready ∨
    (s.place.holds f ∧ ((s.fiber f).Unsettled → (s.fiber f).pendingResume = true)) := by
  have hno : ∀ {a : Answer}, (s.fiber f).answer = a → a ≠ .given → False :=
    fun he hne => hne (he.symm.trans hgiven)
  have hofOpen : Open (s.fiber f) → False := by
    intro hopen
    cases hopen with
    | owed _ hanswer => exact hno hanswer nofun
    | pool _ hanswer => exact hno hanswer nofun
    | fd _ _ hanswer => exact hno hanswer nofun
    | found _ _ hanswer => exact hno hanswer nofun
    | expired _ _ hanswer => exact hno hanswer nofun
  cases h.phase f with
  | ready _ _ hstate _ _ hreturns hwhere =>
    rcases hwhere with ⟨_, hready⟩ | ⟨hstage, _⟩
    · exact Or.inl hready
    · refine Or.inr ⟨holds_of_stage (hstage.trans_ne nofun), fun hun => ?_⟩
      exact absurd hun (hreturns.not_unsettled (hstate.trans_ne nofun))
  | running _ _ hstate _ _ hreturns hstage =>
    refine Or.inr ⟨holds_of_stage (hstage.trans_ne nofun), fun hun => ?_⟩
    exact absurd hun (hreturns.not_unsettled (hstate.trans_ne nofun))
  | posted _ _ _ _ _ hanswer hstage =>
    refine Or.inr ⟨holds_of_stage (hstage.trans_ne nofun), fun _ => ?_⟩
    exact hanswer.elim (fun howed => (hno howed.1 nofun).elim) Early.pending
  | suspending _ _ _ _ hpending hwhere =>
    have hstage : s.place.stage f ≠ .away := by
      rcases hwhere with ⟨hstage, _⟩ | ⟨hstage, _⟩ <;> exact hstage.trans_ne nofun
    refine Or.inr ⟨holds_of_stage hstage, fun _ => ?_⟩
    cases hpending with
    | early _ hearly => exact hearly.pending
    | later _ hopen => exact (hofOpen hopen).elim
  | fresh hx => exact (hno (congrArg Fiber.answer hx) nofun).elim
  | yielded _ _ _ _ _ hanswer => exact (hno hanswer nofun).elim
  | waiting _ _ _ _ _ hopen => exact (hofOpen hopen).elim
  | done _ _ hanswer => exact (hno hanswer nofun).elim

/-- The invariant is enough. -/
theorem Inv.safe (h : Inv s) : Safe s where
  ready := h.ready
  running := by
    intro f hholds
    have hstage := stage_of_holds hholds
    cases h.phase f with
    | ready _ _ _ _ _ _ hwhere =>
      exact hwhere.elim (fun haway => absurd haway.1 hstage) And.right
    | fresh _ _ hready => exact hready
    | running _ _ _ _ _ _ _ hready => exact hready
    | posted _ _ _ _ _ _ _ hready => exact hready
    | suspending _ _ _ _ _ _ hready => exact hready
    | yielded _ _ _ _ _ _ _ _ hready => exact hready
    | waiting _ _ _ _ _ _ _ _ hready => exact hready
    | done _ _ _ _ _ hready => exact hready
  waiting := by
    intro f
    have hno : ∀ {state : SchedState}, (s.fiber f).schedState = state → state ≠ .SUSPENDING →
        state ≠ .WAITING → ¬ ((s.fiber f).schedState = .SUSPENDING ∨
          (s.fiber f).schedState = .WAITING) := by
      intro state hstate h1 h2 hor
      rcases hor with he | he
      · exact h1 (hstate.symm.trans he)
      · exact h2 (hstate.symm.trans he)
    cases h.phase f with
    | fresh hx _ _ hwaiting =>
      exact iff_of_false hwaiting (hno (congrArg Fiber.schedState hx) nofun nofun)
    | ready _ _ hstate _ _ _ _ hwaiting => exact iff_of_false hwaiting (hno hstate nofun nofun)
    | running _ _ hstate _ _ _ _ _ hwaiting => exact iff_of_false hwaiting (hno hstate nofun nofun)
    | posted _ _ hstate _ _ _ _ _ hwaiting => exact iff_of_false hwaiting (hno hstate nofun nofun)
    | suspending _ _ hstate _ _ _ _ hwaiting => exact iff_of_true hwaiting (Or.inl hstate)
    | yielded _ hstate _ _ _ _ _ _ _ hwaiting =>
      exact iff_of_false hwaiting (hno hstate nofun nofun)
    | waiting _ _ hstate _ _ _ _ _ _ hwaiting => exact iff_of_true hwaiting (Or.inr hstate)
    | done _ hstate _ _ _ _ hwaiting => exact iff_of_false hwaiting (hno hstate nofun nofun)
  kept := fun _ hgiven => h.kept hgiven
  awaited := by
    intro f hstate
    have hopen := ((h.phase f).waits hstate).isOpen
    cases hopen with
    | owed _ hanswer => exact ⟨hanswer.trans_ne nofun, hanswer.trans_ne nofun⟩
    | pool _ hanswer => exact ⟨hanswer.trans_ne nofun, hanswer.trans_ne nofun⟩
    | fd _ _ hanswer => exact ⟨hanswer.trans_ne nofun, hanswer.trans_ne nofun⟩
    | found _ _ hanswer => exact ⟨hanswer.trans_ne nofun, hanswer.trans_ne nofun⟩
    | expired _ _ hanswer => exact ⟨hanswer.trans_ne nofun, hanswer.trans_ne nofun⟩
  results := h.results

/-- In every run in which each suspension is answered exactly once, no wake-up is lost and no
fiber is made ready twice, and `wait_readable_tmo` tells the truth. -/
theorem safe_of_run (s : State F) (h : RunWhere Step Answers State.start s) : Safe s := by
  refine (RunWhere.keeps (I := Inv) ?_ h start_inv).safe
  intro s a s' hs hok hi
  exact step_inv hs hok hi

/-- The job of one fiber is done before the fiber suspends itself, and the other one waits for a
descriptor. -/
theorem safe_of_run_early : ∃ s : State Nat, s.results = [⟨1, 1, true, false⟩] ∧
    (s.fiber 0).schedState = .DONE ∧ Safe s := by
  have hrun : stepsWhere step answers (State.start : State Nat) [.spawn 0, .spawn 1, .pick, .start,
      .post true, .jobDone 0, .resume 0, .suspend, .switch, .settle, .pick, .start,
      .waitReadable 5 100, .switch, .settle, .poll [5], .event, .resumeFound, .sweep, .endSweep,
      .pick, .start, .back, .finish, .settle, .pick, .start, .back] = some _ := rfl
  exact ⟨_, rfl, rfl, safe_of_run _ (runWhere_of_stepsWhere hrun)⟩

end Phases

end Fibers

end Look
