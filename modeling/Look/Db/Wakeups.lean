/-
Fibers that wait for a connection.

A fiber that finds its pool exhausted registers in `g_fiber_waiters` and is suspended, and
a release resumes the first fiber of that list.  The check and the registration are two
critical sections, and the list has the waiters of all pools: a connection that comes back
in between resumes nobody, and a release may resume a fiber that waits for another pool.
When neither happens, a pool with waiters has at most as many free connections as resumes
that are under way.
-/
import Look.Db.Pool

namespace Look

namespace Db

/-- There are `n` requests that will look at the pool or are about to notify. -/
def Pending (s : System) (p n : Nat) : Prop :=
  ∃ rs : List Nat, rs.Nodup ∧ n ≤ rs.length ∧
    ∀ r ∈ rs, s.phase r = .resumed p ∨ s.phase r = .notifying p

/-- A pool with waiters has no more free connections than there are resumes pending. -/
def Awake (s : System) : Prop :=
  ∀ p, (∃ f, (f, p) ∈ s.waiters) → Pending s p (s.pools p).available.length

/-- A fiber registers when its pool is still exhausted, and a release resumes a waiter of
its own pool if there is one. -/
def careful (s : System) : Action → Bool
  | .register r =>
    match s.phase r with
    | .exhausted p => (s.pools p).available.isEmpty
    | _ => true
  | .notify r =>
    match s.phase r, s.waiters with
    | .notifying p, (_, q) :: _ => q == p || s.waiters.all fun w => w.2 != p
    | _, _ => true
  | _ => true

section Pending

variable {s s' : System} {r p n : Nat}

theorem Pending.zero : Pending s p 0 :=
  ⟨[], List.nodup_nil, Nat.le_refl _, nofun⟩

/-- The other requests do not count. -/
theorem Pending.keep (h : Pending s p n)
    (hsame : ∀ r, s.phase r = .resumed p ∨ s.phase r = .notifying p → s'.phase r = s.phase r) :
    Pending s' p n := by
  obtain ⟨rs, hnodup, hlen, hrs⟩ := h
  refine ⟨rs, hnodup, hlen, ?_⟩
  intro r hr
  rw [hsame r (hrs r hr)]
  exact hrs r hr

/-- One request goes on. -/
theorem Pending.without (h : Pending s p (n + 1))
    (hsame : ∀ r', r' ≠ r → s'.phase r' = s.phase r') : Pending s' p n := by
  obtain ⟨rs, hnodup, hlen, hrs⟩ := h
  refine ⟨rs.erase r, hnodup.erase r, ?_, ?_⟩
  · have hle := List.le_length_erase (a := r) (l := rs)
    omega
  · intro r' hr'
    obtain ⟨hne, hmem⟩ := (List.Nodup.mem_erase_iff hnodup).mp hr'
    rw [hsame r' hne]
    exact hrs r' hmem

/-- One more request counts. -/
theorem Pending.add (h : Pending s p n)
    (hbefore : ¬ (s.phase r = .resumed p ∨ s.phase r = .notifying p))
    (hafter : s'.phase r = .resumed p ∨ s'.phase r = .notifying p)
    (hsame : ∀ r', r' ≠ r → s'.phase r' = s.phase r') : Pending s' p (n + 1) := by
  obtain ⟨rs, hnodup, hlen, hrs⟩ := h
  have hr : r ∉ rs := fun hmem => hbefore (hrs r hmem)
  refine ⟨r :: rs, List.nodup_cons.mpr ⟨hr, hnodup⟩, Nat.succ_le_succ hlen, ?_⟩
  intro r' hr'
  rcases List.mem_cons.mp hr' with rfl | hmem
  · exact hafter
  · have hne : r' ≠ r := by
      rintro rfl
      exact hr hmem
    rw [hsame r' hne]
    exact hrs r' hmem

theorem Pending.exists (h : Pending s p (n + 1)) :
    (∃ f, s.phase f = .resumed p) ∨ ∃ r, s.phase r = .notifying p := by
  obtain ⟨rs, -, hlen, hrs⟩ := h
  cases rs with
  | nil => cases hlen
  | cons r rs =>
    rcases hrs r List.mem_cons_self with hr | hr
    · exact .inl ⟨r, hr⟩
    · exact .inr ⟨r, hr⟩

end Pending

/-! ## One step -/

section Awake

variable {fiber : Nat → Bool} {s s' : System} {a : Action} {r p : Nat}

/-- A request whose phase is of no pool, or of another one. -/
theorem not_counted {q : Nat} (hphase : s.phase r = .running ∨ s.phase r = .releasing ∨
    s.phase r = .exhausted p ∨ s.phase r = .resumed p ∨ s.phase r = .notifying p)
    (hq : q ≠ p) : ¬ (s.phase r = .resumed q ∨ s.phase r = .notifying q) := by
  rintro (h | h) <;> rcases hphase with h' | h' | h' | h' | h' <;> rw [h'] at h <;> cases h <;>
    exact hq rfl

theorem System.Looks.not_counted (hlooks : s.Looks r p) {q : Nat} (hq : q ≠ p) :
    ¬ (s.phase r = .resumed q ∨ s.phase r = .notifying q) := by
  refine Db.not_counted (p := p) ?_ hq
  rcases hlooks with ⟨h, -, -⟩ | h | h
  · exact .inl h
  · exact .inr (.inr (.inl h))
  · exact .inr (.inr (.inr (.inl h)))

/-- The requests that count for a pool do not include the one that goes on. -/
theorem Pending.keep_of_ne {n : Nat} (h : Pending s p n)
    (hbefore : ¬ (s.phase r = .resumed p ∨ s.phase r = .notifying p))
    (hsame : ∀ r', r' ≠ r → s'.phase r' = s.phase r') : Pending s' p n := by
  refine h.keep ?_
  intro r' hr'
  refine hsame r' ?_
  rintro rfl
  exact hbefore hr'

theorem Awake.take {c : Nat} {rest : List Nat} (h : Awake s) (hlooks : s.Looks r p)
    (hfree : (s.pools p).available = c :: rest) : Awake (s.take r p c rest) := by
  intro q hq
  have hpending := h q hq
  dsimp only [System.take]
  by_cases hqp : q = p
  · subst hqp
    rw [hfree] at hpending
    rw [Function.update_self]
    exact hpending.without (r := r) update_others
  · rw [Function.update_of_ne hqp]
    exact hpending.keep_of_ne (hlooks.not_counted hqp) update_others

theorem Awake.exhaust (h : Awake s) (hlooks : s.Looks r p) (hfree : (s.pools p).available = []) :
    Awake (s.setPhase r (.exhausted p)) := by
  intro q hq
  dsimp only [System.setPhase]
  by_cases hqp : q = p
  · subst hqp
    rw [hfree]
    exact Pending.zero
  · exact (h q hq).keep_of_ne (hlooks.not_counted hqp) update_others

theorem Awake.register (h : Awake s) (hphase : s.phase r = .exhausted p)
    (hfree : (s.pools p).available = []) :
    Awake ({ s with waiters := s.waiters ++ [(r, p)] }.setPhase r (.suspended p)) := by
  rintro q ⟨f, hf⟩
  dsimp only [System.setPhase] at hf ⊢
  by_cases hqp : q = p
  · subst hqp
    rw [hfree]
    exact Pending.zero
  · rcases List.mem_append.mp hf with hf | hf
    · exact (h q ⟨f, hf⟩).keep_of_ne (not_counted (.inr (.inr (.inl hphase))) hqp) update_others
    · cases List.mem_singleton.mp hf
      exact absurd rfl hqp

theorem Awake.giveBack {c : Nat} {active : Nat → List (Nat × Nat)} (h : Awake s)
    (hphase : s.phase r = .running ∨ s.phase r = .releasing) :
    Awake { s with
      pools := Function.update s.pools p
        { s.pools p with available := c :: (s.pools p).available }
      active := active
      phase := Function.update s.phase r (.notifying p) } := by
  have hbefore : ∀ q, ¬ (s.phase r = .resumed q ∨ s.phase r = .notifying q) := by
    rintro q (hq | hq) <;> rcases hphase with hphase | hphase <;> rw [hphase] at hq <;> cases hq
  intro q hq
  dsimp only
  by_cases hqp : q = p
  · subst hqp
    rw [Function.update_self]
    exact (h q hq).add (hbefore q) (.inr (Function.update_self ..)) update_others
  · rw [Function.update_of_ne hqp]
    exact (h q hq).keep_of_ne (hbefore q) update_others

/-- A request that counts for no pool goes on. -/
theorem Awake.setPhase {active : Nat → List (Nat × Nat)} {phase : Phase} (h : Awake s)
    (hphase : s.phase r = .running ∨ s.phase r = .releasing) :
    Awake { s with active := active, phase := Function.update s.phase r phase } := by
  intro q hq
  refine (h q hq).keep_of_ne (r := r) ?_ update_others
  rintro (hr | hr) <;> rcases hphase with hphase | hphase <;> rw [hphase] at hr <;> cases hr

/-- The first waiter is resumed, and it waits for the pool if another fiber does. -/
theorem Awake.notify {f q : Nat} {rest : List (Nat × Nat)} (h : Awake s) (hw : Waits s)
    (hphase : s.phase r = .notifying p) (hwaiters : s.waiters = (f, q) :: rest)
    (hq : q = p ∨ ∀ g, (g, p) ∉ s.waiters) :
    Awake (({ s with waiters := rest }.setPhase r .releasing).setPhase f (.resumed q)) := by
  have hf : s.phase f = .suspended q := hw.queued f q (by rw [hwaiters]; exact List.mem_cons_self)
  have hfr : r ≠ f := by
    rintro rfl
    rw [hphase] at hf
    cases hf
  have hnot : ∀ q', ¬ (s.phase f = .resumed q' ∨ s.phase f = .notifying q') := by
    rintro q' (hq' | hq') <;> rw [hf] at hq' <;> cases hq'
  rintro q' ⟨g, hg⟩
  have hg : (g, q') ∈ s.waiters := by
    rw [hwaiters]
    exact List.mem_cons_of_mem _ hg
  have hpending := h q' ⟨g, hg⟩
  show Pending _ q' (s.pools q').available.length
  by_cases hqp : q' = p
  · subst hqp
    obtain rfl : q = q' := by
      rcases hq with hq | hnone
      · exact hq
      · exact absurd hg (hnone g)
    -- the fiber counts instead of the request that notifies
    have hmore : Pending (s.setPhase f (.resumed q)) q ((s.pools q).available.length + 1) :=
      hpending.add (hnot q) (.inl (Function.update_self ..)) update_others
    refine hmore.without (r := r) ?_
    intro r' hr'
    dsimp only [System.setPhase]
    by_cases hr'f : r' = f
    · subst hr'f
      rw [Function.update_self, Function.update_self]
    · rw [Function.update_of_ne hr'f, Function.update_of_ne hr'f, Function.update_of_ne hr']
  · refine hpending.keep ?_
    intro r' hr'
    have hr'f : r' ≠ f := by
      rintro rfl
      exact hnot q' hr'
    have hr'r : r' ≠ r := by
      rintro rfl
      exact not_counted (.inr (.inr (.inr (.inr hphase)))) hqp hr'
    dsimp only [System.setPhase]
    rw [Function.update_of_ne hr'f, Function.update_of_ne hr'r]

theorem Awake.step (h : Awake s) (hw : Waits s) (hmove : Move s a s')
    (hcareful : careful s a = true) : Awake s' := by
  cases hmove with
  | @connect p n hnew hn =>
    rintro q ⟨f, hf⟩
    have hqp : q ≠ p := by
      rintro rfl
      exact hw.known f q (congrArg Phase.wants (hw.queued f q hf)) hnew
    have hpending := h q ⟨f, hf⟩
    dsimp only
    rw [Function.update_of_ne hqp]
    exact hpending.keep fun _ _ => rfl
  | @close p =>
    rintro q hq
    have hpending := h q hq
    dsimp only
    by_cases hqp : q = p
    · subst hqp
      rw [Function.update_self]
      exact hpending.keep fun _ _ => rfl
    · rw [Function.update_of_ne hqp]
      exact hpending.keep fun _ _ => rfl
  | take hlooks hfree => exact h.take hlooks hfree
  | exhaust hlooks hfree => exact h.exhaust hlooks hfree
  | @register r p hphase =>
    refine h.register hphase ?_
    rw [careful, hphase] at hcareful
    exact List.isEmpty_iff.mp hcareful
  | statement => exact fun q hq => (h q hq).keep fun _ _ => rfl
  | txOpen => exact fun q hq => (h q hq).keep fun _ _ => rfl
  | txEnd => exact fun q hq => (h q hq).keep fun _ _ => rfl
  | giveBack hphase _ _ _ => exact h.giveBack hphase
  | drop hphase _ _ _ => exact h.setPhase hphase
  | settle hphase => exact h.setPhase (.inr hphase)
  | @notifyNone r p hphase hwaiters =>
    rintro q ⟨f, hf⟩
    dsimp only [System.setPhase] at hf
    rw [hwaiters] at hf
    cases hf
  | @notify r p f q rest hphase hwaiters =>
    refine h.notify hw hphase hwaiters ?_
    simp only [careful, hphase, hwaiters, Bool.or_eq_true, beq_iff_eq, List.all_eq_true,
      bne_iff_ne] at hcareful
    rcases hcareful with hq | hnone
    · exact .inl hq
    · refine .inr ?_
      intro g hg
      rw [hwaiters] at hg
      exact hnone (g, p) hg rfl

/-- In a run in which fibers register when their pool is still exhausted and a release
resumes a waiter of its own pool: when a pool has a free connection and a fiber waits for
it, a fiber that waited for this pool was resumed and has not looked yet, or a release of
this pool is about to notify. -/
theorem resume_pending
    (hrun : RunWhere (Step fiber) (fun s a => careful s a = true) System.start s)
    (hfree : (s.pools p).available ≠ []) (hwaiter : ∃ f, (f, p) ∈ s.waiters) :
    (∃ f, s.phase f = .resumed p) ∨ ∃ r, s.phase r = .notifying p := by
  have hboth : Awake s ∧ Waits s := by
    refine RunWhere.keeps (I := fun s => Awake s ∧ Waits s) ?_ hrun ⟨nofun, start_waits⟩
    rintro s a s' hstep hcareful ⟨ha, hw⟩
    exact ⟨ha.step hw (step_move hstep) hcareful, hw.step (step_move hstep)⟩
  have hpending := hboth.1 p hwaiter
  obtain ⟨c, rest, havailable⟩ := List.exists_cons_of_ne_nil hfree
  rw [havailable] at hpending
  exact hpending.exists

end Awake

/-- Two fibers wait, and one connection comes back. -/
theorem resume_pending_two : ∃ s : System, (s.pools 0).available ≠ [] ∧ (3, 0) ∈ s.waiters ∧
    ((∃ f, s.phase f = .resumed 0) ∨ ∃ r, s.phase r = .notifying 0) := by
  have hrun : (stepsWhere (step fun _ => true) careful System.start
      [.connect 0 2, .acquire 0 0, .acquire 1 0, .acquire 2 0, .register 2, .acquire 3 0,
        .register 3, .giveBack 0, .notify 0, .finish 0]).any (fun s =>
        !(s.pools 0).available.isEmpty && decide ((3, 0) ∈ s.waiters)) = true := by
    decide +kernel
  obtain ⟨s, hs, hend⟩ := (Option.any_eq_true _ _).mp hrun
  rw [Bool.and_eq_true, Bool.not_eq_true', decide_eq_true_eq] at hend
  have hfree : (s.pools 0).available ≠ [] := by
    intro hnil
    rw [hnil] at hend
    exact absurd hend.1 nofun
  exact ⟨s, hfree, hend.2, resume_pending (runWhere_of_stepsWhere hs) hfree ⟨3, hend.2⟩⟩

/-! ## Lost wake-ups -/

/-- The connection comes back between the check of fiber 2 and its registration. -/
def lateActions : List Action :=
  [.connect 0 2, .acquire 0 0, .acquire 1 0, .acquire 2 0, .giveBack 0, .notify 0, .finish 0,
    .register 2]

/-- Fiber 4 waits for pool 0 and fiber 5 for pool 1.  A connection of pool 1 comes back and
fiber 4 is resumed, which finds its pool exhausted and registers again. -/
def crossedActions : List Action :=
  [.connect 0 2, .connect 1 2, .acquire 0 0, .acquire 1 0, .acquire 2 1, .acquire 3 1,
    .acquire 4 0, .register 4, .acquire 5 1, .register 5, .giveBack 2, .notify 2, .finish 2,
    .retry 4, .register 4]

/-- The state after the actions. -/
def after (actions : List Action) : System :=
  (actions.foldlM (step fun _ => true) System.start).getD System.start

theorem run_after {actions : List Action}
    (h : (actions.foldlM (step fun _ => true) System.start).isSome = true) :
    Run (Step fun _ => true) System.start (after actions) := by
  obtain ⟨s, hs⟩ := Option.isSome_iff_exists.mp h
  rw [after, hs]
  exact run_of_foldlM hs

/-- Both ways to leave a fiber asleep next to a free connection. -/
theorem wakeup_lost :
    (∃ s : System, Run (Step fun _ => true) System.start s ∧ (s.pools 0).available ≠ [] ∧
      (2, 0) ∈ s.waiters ∧ ∀ r, s.phase r ≠ .resumed 0 ∧ s.phase r ≠ .notifying 0) ∧
    ∃ s : System, Run (Step fun _ => true) System.start s ∧ (s.pools 1).available ≠ [] ∧
      (5, 1) ∈ s.waiters ∧ ∀ r, s.phase r ≠ .resumed 1 ∧ s.phase r ≠ .notifying 1 := by
  constructor
  · refine ⟨after lateActions, run_after (by decide +kernel), by decide +kernel,
      by decide +kernel, ?_⟩
    intro r
    match r with
    | 0 | 1 | 2 => decide +kernel
    | r + 3 =>
      have hrunning : (after lateActions).phase (r + 3) = .running := rfl
      rw [hrunning]
      exact ⟨nofun, nofun⟩
  · refine ⟨after crossedActions, run_after (by decide +kernel), by decide +kernel,
      by decide +kernel, ?_⟩
    intro r
    match r with
    | 0 | 1 | 2 | 3 | 4 | 5 => decide +kernel
    | r + 6 =>
      have hrunning : (after crossedActions).phase (r + 6) = .running := rfl
      rw [hrunning]
      exact ⟨nofun, nofun⟩

end Db

end Look
