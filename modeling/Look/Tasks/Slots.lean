/-
What the task limiter keeps to.

The counter is the number of slots that are held and of the refused attempts that have not
taken their 1 back, so no more slots are granted than there are.  Where no refused 1 is in the
way and no notification is lost, a sleeper and a free slot mean that as many notifications are
at work as slots are free.
-/
import Look.Tasks.Limiter

namespace Look

namespace Limiter

variable {T : Type} {limit : Nat} {s s' : State T} {t u : T}

/-! ## The counter -/

/-- What is in the counter. -/
structure Counted (limit : Nat) (s : State T) : Prop where
  count : s.count = s.held + s.refused.length
  bounded : s.held ≤ limit
  nodup : s.refused.Nodup
  raised : ∀ t, t ∈ s.refused ↔ (s.phase t).raised = true

theorem start_counted : Counted limit (State.start : State T) where
  count := rfl
  bounded := Nat.zero_le _
  nodup := List.nodup_nil
  raised t := by simp [State.start, Phase.raised]

/-- The counter is not touched. -/
theorem Counted.of_same (h : Counted limit s) (hcount : s'.count = s.count)
    (hheld : s'.held = s.held) (hrefused : s'.refused = s.refused)
    (hraised : ∀ t, (s'.phase t).raised = (s.phase t).raised) : Counted limit s' where
  count := by rw [hcount, hheld, hrefused, h.count]
  bounded := hheld ▸ h.bounded
  nodup := hrefused ▸ h.nodup
  raised t := by rw [hrefused, hraised, h.raised]

variable [DecidableEq T]

theorem raised_update {phase : T → Phase} {p : Phase} (hp : p.raised = (phase t).raised) (u : T) :
    (Function.update phase t p u).raised = (phase u).raised :=
  (Function.forall_update_iff phase fun u p => p.raised = (phase u).raised).mpr
    ⟨hp, fun _ _ => rfl⟩ u

theorem Counted.grant (h : Counted limit s) (hphase : (s.phase t).raised = false)
    (hroom : s.count < limit) : Counted limit (s.grant t) where
  count := by
    show s.count + 1 = (s.held + 1 : Nat) + (s.refused.length : Int)
    rw [h.count]
    omega
  bounded := by
    show s.held + 1 ≤ limit
    have hcount := h.count
    omega
  nodup := h.nodup
  raised u := (h.raised u).trans (by rw [← raised_update (p := .idle) hphase.symm u]; rfl)

theorem Counted.refuse (h : Counted limit s) {p : Phase} (hphase : (s.phase t).raised = false)
    (hp : p.raised = true) : Counted limit (s.refuse t p) where
  count := by
    show s.count + 1 = s.held + ((t :: s.refused).length : Int)
    rw [h.count, List.length_cons]
    omega
  bounded := h.bounded
  nodup := by
    refine List.nodup_cons.mpr ⟨?_, h.nodup⟩
    rw [h.raised, hphase]
    exact Bool.false_ne_true
  raised u := by
    show u ∈ t :: s.refused ↔ (Function.update s.phase t p u).raised = true
    by_cases hu : u = t
    · subst hu
      rw [Function.update_self, hp]
      simp
    · rw [Function.update_of_ne hu, List.mem_cons, or_iff_right hu, h.raised]

theorem Counted.takeBack (h : Counted limit s) {p : Phase} (hphase : (s.phase t).raised = true)
    (hp : p.raised = false) : Counted limit (s.takeBack t p) where
  count := by
    show s.count - 1 = s.held + ((s.refused.erase t).length : Int)
    have hmem := (h.raised t).mpr hphase
    have hpos := List.length_pos_of_mem hmem
    rw [h.count, List.length_erase_of_mem hmem]
    omega
  bounded := h.bounded
  nodup := h.nodup.erase t
  raised u := by
    show u ∈ s.refused.erase t ↔ (Function.update s.phase t p u).raised = true
    rw [h.nodup.mem_erase_iff]
    by_cases hu : u = t
    · subst hu
      rw [Function.update_self, hp]
      simp
    · rw [Function.update_of_ne hu, ← h.raised]
      simp [hu]

theorem Counted.release (h : Counted limit s) {p : Phase} (hp : p.raised = (s.phase t).raised)
    (hheld : 0 < s.held) :
    Counted limit { s.setPhase t p with count := s.count - 1, held := s.held - 1 } where
  count := by
    show s.count - 1 = (s.held - 1 : Nat) + (s.refused.length : Int)
    rw [h.count]
    omega
  bounded := Nat.le_trans (Nat.sub_le _ _) h.bounded
  nodup := h.nodup
  raised u := (h.raised u).trans (by rw [← raised_update hp u]; rfl)

theorem raised_notify (p : Phase) : p.notify.raised = p.raised := by
  cases p <;> rfl

theorem raised_of_attempts {p : Phase} (h : p.attempts = true) : p.raised = false := by
  cases p <;> first | rfl | cases h

theorem raised_of_joins {p : Phase} (h : p.joins = true) : p.raised = false := by
  cases p <;> first | rfl | cases h

theorem raised_settled {remaining : Int} :
    (if remaining ≤ 0 then Phase.draining else .idle).raised = false := by
  split <;> rfl

/-- Every step keeps the counter right. -/
theorem Counted.step {a : Action T} (h : Counted limit s) (hs : Step limit s a s') :
    Counted limit s' := by
  have hsame : ∀ {t p}, (s.phase t).raised = false → p.raised = false → ∀ u,
      (Function.update s.phase t p u).raised = (s.phase u).raised :=
    fun ht hp => raised_update (hp.trans ht.symm)
  cases step_move hs with
  | grant _ hphase hroom _ =>
    have hgrant := h.grant (raised_of_attempts hphase) hroom
    exact hgrant.of_same rfl rfl rfl fun _ => rfl
  | refuse _ hphase _ hp _ _ =>
    have hrefuse := h.refuse (raised_of_attempts hphase) hp
    exact hrefuse.of_same rfl rfl rfl fun _ => rfl
  | @takeBack _ t p _ hphase hp _ =>
    have hraised : p.raised = false := by rcases hp with rfl | rfl <;> rfl
    exact (h.takeBack hphase hraised).of_same rfl rfl rfl fun _ => rfl
  | pass hphase =>
    refine h.of_same rfl rfl rfl (hsame ?_ rfl)
    rcases hphase with ⟨hphase, -⟩ | ⟨_, hphase⟩ <;> rw [hphase] <;> rfl
  | fail _ hphase _ _ hp =>
    refine h.of_same rfl rfl rfl (hsame ?_ ?_)
    · rcases hphase with hphase | ⟨_, _, hphase⟩ <;> rw [hphase] <;> rfl
    · rcases hp with rfl | ⟨_, rfl⟩ <;> rfl
  | block hphase => exact h.of_same rfl rfl rfl (hsame (by rw [hphase]; rfl) rfl)
  | unblock hphase => exact h.of_same rfl rfl rfl (hsame (by rw [hphase]; rfl) rfl)
  | expire hphase => exact h.of_same rfl rfl rfl (hsame (by rw [hphase]; rfl) rfl)
  | release _ hphase hheld _ hp =>
    refine h.release ?_ hheld
    rw [hphase]
    rcases hp with rfl | rfl | rfl <;> rfl
  | notifyNone hphase _ =>
    exact h.of_same rfl rfl rfl (hsame (by rw [hphase]; rfl) raised_settled)
  | @notifyOne t u remaining hphase _ =>
    refine h.of_same rfl rfl rfl ?_
    intro v
    have ht := hsame (t := t) (by rw [hphase]; rfl) (p := if remaining ≤ 0 then .draining else .idle)
      raised_settled
    by_cases hv : v = u
    · subst hv
      exact (congrArg Phase.raised (Function.update_self ..)).trans (raised_notify _)
    · exact (congrArg Phase.raised (Function.update_of_ne hv ..)).trans (ht v)
  | @notifyAll _ t hphase _ =>
    refine h.of_same rfl rfl rfl ?_
    intro v
    show (Function.update (fun u => (s.phase u).notify) t .idle v).raised = (s.phase v).raised
    by_cases hv : v = t
    · subst hv
      rw [Function.update_self, hphase]
      rfl
    · rw [Function.update_of_ne hv, raised_notify]
  | join hphase hp _ _ =>
    exact h.of_same rfl rfl rfl (hsame (raised_of_joins hphase) (raised_of_joins hp))

/-- No run grants more slots than there are. -/
theorem held_le_of_run (h : Run (Step limit) State.start s) : s.held ≤ limit :=
  (RunWhere.keeps (I := Counted limit) (fun _ _ _ hs _ hi => hi.step hs) h start_counted).bounded

/-- Also where a `TRY` is refused because of a count that is about to be taken back. -/
theorem held_le_of_run_refused : ∃ s : State (Fin 3), s.refusals = [0, 1] ∧ s.held ≤ 1 := by
  have hrefused : [.acquire 0 .TRY, .acquire 1 .TRY, .release 0, .acquire 2 .TRY].foldlM (step 1)
      (State.start : State (Fin 3)) = some _ := rfl
  exact ⟨_, rfl, held_le_of_run (run_of_foldlM hrefused)⟩

/-! ## Sleepers -/

/-- Somebody is asleep for a slot or about to be, and is not forgotten: all will be notified, or
there are as many notifications at work as slots are free. -/
structure Awake (limit : Nat) (s : State T) : Prop where
  owner : ∀ t, (s.phase t).locks = true → s.owner = some t
  sleeping : ∀ t, s.phase t = .blocked → t ∈ s.sleepers
  enough : (∃ t, (s.phase t).waits = true) →
    (∃ u, s.phase u = .draining) ∨ AtLeast (fun u => (s.phase u).pending = true) (limit - s.held)
  refusals : ∀ n ∈ s.refusals, n = limit

omit [DecidableEq T] in
theorem start_awake : Awake limit (State.start : State T) where
  owner := nofun
  sleeping := nofun
  enough := by
    rintro ⟨t, ht⟩
    cases ht
  refusals := nofun

omit [DecidableEq T] in
theorem Counted.held_of_full (h : Counted limit s) (hquiet : s.refused = [])
    (hfull : limit ≤ s.count) : s.held = limit := by
  have hcount := h.count
  have hbounded := h.bounded
  rw [hquiet, List.length_nil] at hcount
  omega

section Step

variable {phase : T → Phase} {p : Phase}

/-- Who locks after one thread has gone on. -/
theorem locks_update (h : (Function.update s.phase t p u).locks = true) :
    u = t ∧ p.locks = true ∨ u ≠ t ∧ (s.phase u).locks = true := by
  by_cases hu : u = t
  · subst hu
    rw [Function.update_self] at h
    exact .inl ⟨rfl, h⟩
  · rw [Function.update_of_ne hu] at h
    exact .inr ⟨hu, h⟩

/-- The mutex after a step of a thread that keeps it or gives it up. -/
theorem Awake.owner_update (h : Awake limit s) {owner : Option T}
    (howner : owner = s.owner ∧ (p.locks = true → (s.phase t).locks = true) ∨
      owner = none ∧ (s.phase t).locks = true ∧ p.locks = false ∨
      s.owner = none ∧ owner = some t) :
    ∀ u, (Function.update s.phase t p u).locks = true → owner = some u := by
  intro u hu
  rcases locks_update hu with ⟨rfl, hp⟩ | ⟨hne, hu⟩
  · rcases howner with ⟨rfl, hlocks⟩ | ⟨-, -, hnot⟩ | ⟨-, rfl⟩
    · exact h.owner u (hlocks hp)
    · rw [hp] at hnot
      cases hnot
    · rfl
  · have hown := h.owner u hu
    rcases howner with ⟨rfl, -⟩ | ⟨-, hlocks, -⟩ | ⟨hnone, -⟩
    · exact hown
    · exact absurd (Option.some.inj (hown.symm.trans (h.owner t hlocks))) hne
    · rw [hnone] at hown
      cases hown

/-- The sleepers after a step of a thread that does not fall asleep. -/
theorem Awake.sleeping_update (h : Awake limit s) {sleepers : List T} (hp : p ≠ .blocked)
    (hsleepers : ∀ u, u ≠ t → u ∈ s.sleepers → u ∈ sleepers) :
    ∀ u, Function.update s.phase t p u = .blocked → u ∈ sleepers := by
  intro u hu
  by_cases hut : u = t
  · subst hut
    rw [Function.update_self] at hu
    exact absurd hu hp
  · rw [Function.update_of_ne hut] at hu
    exact hsleepers u hut (h.sleeping u hu)

theorem waits_before (hwaits : p.waits = true → (s.phase t).waits = true)
    (hsome : ∃ u, (Function.update s.phase t p u).waits = true) :
    ∃ u, (s.phase u).waits = true := by
  obtain ⟨u, hu⟩ := hsome
  by_cases hut : u = t
  · subst hut
    rw [Function.update_self] at hu
    exact ⟨u, hwaits hu⟩
  · rw [Function.update_of_ne hut] at hu
    exact ⟨u, hu⟩

theorem draining_after (hdrain : s.phase t ≠ .draining) (hsome : ∃ u, s.phase u = .draining) :
    ∃ u, Function.update s.phase t p u = .draining := by
  obtain ⟨u, hu⟩ := hsome
  have hut : u ≠ t := by
    rintro rfl
    exact hdrain hu
  exact ⟨u, (Function.update_of_ne hut ..).trans hu⟩

/-- A step of a thread that starts no wait and ends no notification. -/
theorem Awake.enough_update (h : Awake limit s)
    (hwaits : p.waits = true → (s.phase t).waits = true)
    (hpending : (s.phase t).pending = true → p.pending = true) (hdrain : s.phase t ≠ .draining)
    (hsome : ∃ u, (Function.update s.phase t p u).waits = true) :
    (∃ u, Function.update s.phase t p u = .draining) ∨
      AtLeast (fun u => (Function.update s.phase t p u).pending = true) (limit - s.held) := by
  refine (h.enough (waits_before hwaits hsome)).imp (draining_after hdrain) ?_
  intro hmany
  refine hmany.imp ?_
  intro u hu
  by_cases hut : u = t
  · subst hut
    rw [Function.update_self]
    exact hpending hu
  · rw [Function.update_of_ne hut]
    exact hu

/-- After a grant one slot less is free, and one notification may have done its work. -/
theorem Awake.enough_grant (h : Awake limit s) (hdrain : s.phase t ≠ .draining)
    (hsome : ∃ u, (Function.update s.phase t .idle u).waits = true) :
    (∃ u, Function.update s.phase t .idle u = .draining) ∨
      AtLeast (fun u => (Function.update s.phase t .idle u).pending = true)
        (limit - (s.held + 1)) := by
  refine (h.enough (waits_before (p := .idle) nofun hsome)).imp (draining_after hdrain) ?_
  intro hmany
  rw [Nat.sub_add_eq]
  refine hmany.leave t ?_
  intro u hut hu
  rw [Function.update_of_ne hut]
  exact hu

/-- After a release one slot more is free, and who released it is about to notify. -/
theorem Awake.enough_release (h : Awake limit s) {remaining : Int} (hidle : s.phase t = .idle)
    (hsome : ∃ u, (Function.update s.phase t (.releasing remaining) u).waits = true) :
    (∃ u, Function.update s.phase t (.releasing remaining) u = .draining) ∨
      AtLeast (fun u => (Function.update s.phase t (.releasing remaining) u).pending = true)
        (limit - (s.held - 1)) := by
  have hbefore := waits_before (p := .releasing remaining) nofun hsome
  refine (h.enough hbefore).imp (draining_after (by rw [hidle]; nofun)) ?_
  intro hmany
  have hnot : ¬ (s.phase t).pending = true := by rw [hidle]; nofun
  have hjoined : AtLeast (fun u => (Function.update s.phase t (.releasing remaining) u).pending = true)
      (limit - s.held + 1) := by
    refine hmany.join hnot ?_ ?_
    · rw [Function.update_self]
      rfl
    · intro u hu
      have hut : u ≠ t := by
        rintro rfl
        exact hnot hu
      rw [Function.update_of_ne hut]
      exact hu
  exact hjoined.mono (by omega)

omit [DecidableEq T] in
/-- Where all slots are held no notification is needed. -/
theorem enough_of_full {P : Prop} {Q : T → Prop} (h : s.held = limit) :
    P ∨ AtLeast Q (limit - s.held) := by
  rw [h, Nat.sub_self]
  exact .inr AtLeast.zero

theorem locks_notify (p : Phase) : p.notify.locks = p.locks := by
  cases p <;> rfl

theorem pending_of_raised {p : Phase} (h : p.raised = true) : p.pending = false := by
  cases p <;> first | rfl | cases h

theorem waits_of_notify {p : Phase} (h : p.notify.waits = true) : p = .checked := by
  cases p <;> first | rfl | cases h

omit [DecidableEq T] in
theorem quiet_of_careful {a : Action T} (h : careful s a = true) (hcounts : a.counts = true) :
    s.refused = [] := by
  obtain ⟨hquiet, -⟩ := Bool.and_eq_true_iff.mp h
  rw [hcounts] at hquiet
  exact List.isEmpty_iff.mp hquiet

omit [DecidableEq T] in
/-- `notify_one` at the end of a release: all are notified next, or nobody is about to fall
asleep, and the notification gets to who waits for a slot. -/
theorem notifyOne_of_careful {sleeper : Option T} {remaining : Int}
    (h : careful s (.notifyOne t sleeper) = true) (hphase : s.phase t = .releasing remaining) :
    remaining ≤ 0 ∨ ((∀ u, s.owner = some u → s.phase u ≠ .checked) ∧
      ((∃ u, sleeper = some u ∧ s.phase u = .blocked) ∨
        ∀ u ∈ s.sleepers, s.phase u ≠ .blocked)) := by
  obtain ⟨-, hnotify⟩ := Bool.and_eq_true_iff.mp h
  dsimp only at hnotify
  rw [hphase, Bool.or_eq_true, decide_eq_true_eq, Bool.and_eq_true, Bool.or_eq_true,
    Option.all_eq_true, Option.any_eq_true, List.all_eq_true] at hnotify
  simpa using hnotify

/-- The notification of a release has got to a sleeper that waits for a slot. -/
theorem Awake.enough_notify (h : Awake limit s) {q : Phase} {remaining : Int}
    (hphase : s.phase t = .releasing remaining) (hu : s.phase u = .blocked) :
    (∃ v, Function.update (Function.update s.phase t q) u (.woken true false) v = .draining) ∨
      AtLeast (fun v => (Function.update (Function.update s.phase t q) u
        (.woken true false) v).pending = true) (limit - s.held) := by
  have hother : ∀ v, v ≠ t → v ≠ u →
      Function.update (Function.update s.phase t q) u (.woken true false) v = s.phase v := by
    intro v hvt hvu
    rw [Function.update_of_ne hvu, Function.update_of_ne hvt]
  refine (h.enough ⟨u, by rw [hu]; rfl⟩).imp ?_ ?_
  · rintro ⟨v, hv⟩
    refine ⟨v, (hother v ?_ ?_).trans hv⟩
    · rintro rfl
      rw [hphase] at hv
      cases hv
    · rintro rfl
      rw [hu] at hv
      cases hv
  · intro hmany
    have hleft : AtLeast (fun v => (s.phase v).pending = true ∧ v ≠ t) (limit - s.held - 1) :=
      hmany.leave t fun v hvt hv => ⟨hv, hvt⟩
    refine (hleft.join (x := u) ?_ ?_ ?_).mono (by omega)
    · rintro ⟨hpending, -⟩
      rw [hu] at hpending
      cases hpending
    · rw [Function.update_self]
      rfl
    · rintro v ⟨hpending, hvt⟩
      have hvu : v ≠ u := by
        rintro rfl
        rw [hu] at hpending
        cases hpending
      rw [hother v hvt hvu]
      exact hpending

theorem locks_of_settled {remaining : Int} :
    (if remaining ≤ 0 then Phase.draining else .idle).locks = false := by
  split <;> rfl

omit [DecidableEq T] in
theorem Awake.nobody_waits (h : Awake limit s)
    (hnone : ∀ u, s.owner = some u → s.phase u ≠ .checked)
    (hsleepers : ∀ u ∈ s.sleepers, s.phase u ≠ .blocked) (u : T) : ¬ (s.phase u).waits = true := by
  intro hwaits
  cases hu : s.phase u with
  | checked => exact hnone u (h.owner u (by rw [hu]; rfl)) hu
  | blocked => exact hsleepers u (h.sleeping u hu) hu
  | _ =>
    rw [hu] at hwaits
    cases hwaits

theorem notify_ne_blocked {p : Phase} (h : p.sleeps = true) : p.notify ≠ .blocked := by
  cases p with
  | blocked => nofun
  | joinBlocked => nofun
  | _ => cases h

theorem notify_not_waits {p : Phase} (h : p.sleeps = true) : ¬ p.notify.waits = true := by
  cases p with
  | blocked => exact Bool.false_ne_true
  | joinBlocked => exact Bool.false_ne_true
  | _ => cases h

/-- Nobody waits after a step of a thread that does not wait, either. -/
theorem Awake.nobody_waits_update (h : Awake limit s)
    (hnone : ∀ u, s.owner = some u → s.phase u ≠ .checked)
    (hsleepers : ∀ u ∈ s.sleepers, s.phase u ≠ .blocked) (hp : p.waits = false) (u : T) :
    ¬ (Function.update s.phase t p u).waits = true := by
  by_cases hut : u = t
  · subst hut
    rw [Function.update_self, hp]
    exact Bool.false_ne_true
  · rw [Function.update_of_ne hut]
    exact h.nobody_waits hnone hsleepers u

theorem waits_of_settled {remaining : Int} :
    (if remaining ≤ 0 then Phase.draining else .idle).waits = false := by
  split <;> rfl

/-- A careful step keeps enough notifications at work. -/
theorem Awake.step {a : Action T} (h : Awake limit s) (hc : Counted limit s)
    (hs : Step limit s a s') (hok : careful s a = true) : Awake limit s' := by
  have hquiet : a.counts = true → s.refused = [] := quiet_of_careful hok
  cases step_move hs with
  | @grant _ t owner hcounts hphase hroom howner =>
    have hdrain : s.phase t ≠ .draining := by
      intro heq
      rw [heq] at hphase
      cases hphase
    refine ⟨h.owner_update ?_, h.sleeping_update nofun fun _ _ hu => hu, ?_, h.refusals⟩
    · rcases howner with rfl | ⟨rfl, hlocks⟩
      · exact .inl ⟨rfl, nofun⟩
      · exact .inr (.inl ⟨rfl, hlocks, rfl⟩)
    · exact h.enough_grant hdrain
  | @refuse _ t p refusals hcounts hphase hfull hp hlocks hrefusals =>
    have hheld := hc.held_of_full (hquiet hcounts) hfull
    refine ⟨h.owner_update (.inl ⟨rfl, fun hp => hlocks ▸ hp⟩), h.sleeping_update ?_ fun _ _ hu => hu,
      fun _ => enough_of_full hheld, ?_⟩
    · rintro rfl
      cases hp
    · intro n hn
      rcases hrefusals with rfl | rfl
      · exact h.refusals n hn
      · rcases List.mem_cons.mp hn with rfl | hn
        · exact hheld
        · exact h.refusals n hn
  | @takeBack _ t p owner hphase hp howner =>
    have hdrain : s.phase t ≠ .draining := by
      intro heq
      rw [heq] at hphase
      cases hphase
    have hpending : (s.phase t).pending = false := pending_of_raised hphase
    have hplain : p.locks = false ∧ p.waits = false ∧ p ≠ .blocked := by
      rcases hp with rfl | rfl <;> exact ⟨rfl, rfl, nofun⟩
    refine ⟨h.owner_update ?_, h.sleeping_update hplain.2.2 fun _ _ hu => hu,
      h.enough_update ?_ ?_ hdrain, h.refusals⟩
    · rcases howner with rfl | ⟨rfl, hlocks⟩
      · exact .inl ⟨rfl, fun hlocks => absurd hlocks (by rw [hplain.1]; nofun)⟩
      · exact .inr (.inl ⟨rfl, hlocks, hplain.1⟩)
    · exact fun hwaits => absurd hwaits (by rw [hplain.2.1]; nofun)
    · exact fun hyes => absurd hyes (by rw [hpending]; nofun)
  | @pass _ t notified hphase =>
    refine ⟨h.owner_update (.inl ⟨rfl, nofun⟩), h.sleeping_update nofun fun _ _ hu => hu,
      h.enough_update nofun ?_ ?_, h.refusals⟩
    · rcases hphase with ⟨hphase, -⟩ | ⟨_, hphase⟩ <;> rw [hphase]
      · nofun
      · exact id
    · rcases hphase with ⟨hphase, -⟩ | ⟨_, hphase⟩ <;> rw [hphase] <;> nofun
  | @fail _ t p hcounts hphase hfull howner hp =>
    have hheld := hc.held_of_full (hquiet hcounts) hfull
    refine ⟨h.owner_update (.inr (.inr ⟨howner, rfl⟩)), h.sleeping_update ?_ fun _ _ hu => hu,
      fun _ => enough_of_full hheld, h.refusals⟩
    rcases hp with rfl | ⟨_, rfl⟩ <;> nofun
  | @block _ t hphase =>
    refine ⟨h.owner_update (.inr (.inl ⟨rfl, by rw [hphase]; rfl, rfl⟩)), ?_, ?_, h.refusals⟩
    · intro u hu
      by_cases hut : u = t
      · exact List.mem_append_right _ (List.mem_singleton.mpr hut)
      · exact List.mem_append_left _ (h.sleeping u ((Function.update_of_ne hut ..).symm.trans hu))
    · refine h.enough_update ?_ ?_ ?_ <;> rw [hphase]
      · exact fun _ => rfl
      · nofun
      · nofun
  | @unblock _ t expired hphase =>
    refine ⟨h.owner_update (.inl ⟨rfl, nofun⟩),
      h.sleeping_update nofun fun u hne hu => (List.mem_erase_of_ne hne).mpr hu,
      h.enough_update nofun ?_ ?_, h.refusals⟩ <;> rw [hphase] <;> nofun
  | @expire _ t notified hphase =>
    refine ⟨h.owner_update (.inl ⟨rfl, nofun⟩), h.sleeping_update nofun fun _ _ hu => hu,
      h.enough_update nofun ?_ ?_, h.refusals⟩ <;> rw [hphase]
    · exact id
    · nofun
  | @release _ t p hcounts hphase hheld hpending hp =>
    have hcount := hc.count
    have hbounded := hc.bounded
    rw [hquiet hcounts, List.length_nil] at hcount
    obtain rfl : p = .releasing (s.count - 1) := by
      by_contra hne
      have hfull := hpending hne
      omega
    exact ⟨h.owner_update (.inl ⟨rfl, nofun⟩), h.sleeping_update nofun fun _ _ hu => hu,
      h.enough_release hphase, h.refusals⟩
  | @notifyNone t remaining hphase hsleepers =>
    have hcareful := notifyOne_of_careful hok hphase
    refine ⟨h.owner_update (.inl ⟨rfl, ?_⟩), h.sleeping_update ?_ fun _ _ hu => hu, ?_, h.refusals⟩
    · rw [locks_of_settled]
      nofun
    · split <;> nofun
    · rintro ⟨u, hu⟩
      rcases hcareful with hdrained | ⟨hnone, -⟩
      · exact .inl ⟨t, (Function.update_self ..).trans (if_pos hdrained)⟩
      · refine absurd hu (h.nobody_waits_update hnone ?_ waits_of_settled u)
        rw [hsleepers]
        nofun
  | @notifyOne t u remaining hphase hu =>
    have hcareful := notifyOne_of_careful hok hphase
    have hut : u ≠ t := by
      rintro rfl
      rw [hphase] at hu
      cases hu
    refine ⟨?_, ?_, ?_, h.refusals⟩
    · intro v hv
      rcases locks_update hv with ⟨rfl, hlocks⟩ | ⟨-, hv⟩
      · rw [locks_notify] at hlocks
        exact h.owner v hlocks
      · rcases locks_update hv with ⟨rfl, hlocks⟩ | ⟨-, hv⟩
        · rw [locks_of_settled] at hlocks
          cases hlocks
        · exact h.owner v hv
    · intro v hv
      by_cases hvu : v = u
      · subst hvu
        exact absurd ((Function.update_self ..).symm.trans hv) (notify_ne_blocked hu)
      · have hv : Function.update s.phase t _ v = .blocked :=
          (Function.update_of_ne hvu ..).symm.trans hv
        refine h.sleeping_update ?_ (fun _ _ hw => hw) v hv |> (List.mem_erase_of_ne hvu).mpr
        split <;> nofun
    · rintro ⟨v, hv⟩
      rcases hcareful with hdrained | ⟨hnone, ⟨u', hu', hblocked⟩ | hall⟩
      · refine .inl ⟨t, (Function.update_of_ne hut.symm ..).trans ?_⟩
        exact (Function.update_self ..).trans (if_pos hdrained)
      · cases hu'
        have hnotify : (s.phase u).notify = .woken true false := by rw [hblocked]; rfl
        rw [hnotify]
        exact h.enough_notify hphase hblocked
      · have hvu : v ≠ u := by
          rintro rfl
          exact absurd ((congrArg Phase.waits (Function.update_self ..)).symm.trans hv)
            (notify_not_waits hu)
        have hv : (Function.update s.phase t _ v).waits = true :=
          (congrArg Phase.waits (Function.update_of_ne hvu ..)).symm.trans hv
        exact absurd hv (h.nobody_waits_update hnone hall waits_of_settled v)
  | @notifyAll _ t hphase howner =>
    have hafter : ∀ {v}, Function.update (fun u => (s.phase u).notify) t .idle v = .idle ∨
        Function.update (fun u => (s.phase u).notify) t .idle v = (s.phase v).notify := by
      intro v
      by_cases hvt : v = t
      · subst hvt
        exact .inl (Function.update_self ..)
      · exact .inr (Function.update_of_ne hvt ..)
    have hfree : ∀ v, ¬ (s.phase v).locks = true := by
      intro v hv
      exact absurd (h.owner v hv) (by rw [howner]; nofun)
    refine ⟨?_, ?_, ?_, h.refusals⟩
    · intro v hv
      dsimp only at hv
      rcases hafter (v := v) with hidle | hnotify
      · rw [hidle] at hv
        cases hv
      · rw [hnotify, locks_notify] at hv
        exact absurd hv (hfree v)
    · intro v hv
      dsimp only at hv
      rcases hafter (v := v) with hidle | hnotify
      · rw [hidle] at hv
        cases hv
      · rw [hnotify] at hv
        cases hphase : s.phase v <;> rw [hphase] at hv <;> cases hv
    · rintro ⟨v, hv⟩
      dsimp only at hv
      rcases hafter (v := v) with hidle | hnotify
      · rw [hidle] at hv
        cases hv
      · rw [hnotify] at hv
        exact absurd (by rw [waits_of_notify hv]; rfl) (hfree v)
  | @join _ t p owner sleepers hphase hp howner hsleepers =>
    have hplain : p.waits = false ∧ p ≠ .blocked := by
      cases p <;> first | exact ⟨rfl, nofun⟩ | cases hp
    have hbefore : (s.phase t).pending = false ∧ s.phase t ≠ .draining := by
      cases hbefore : s.phase t <;> rw [hbefore] at hphase <;> first | exact ⟨rfl, nofun⟩ | cases hphase
    refine ⟨h.owner_update (howner.imp_left (And.imp_right fun hlocks hyes => hlocks.symm.trans hyes)),
      h.sleeping_update hplain.2 hsleepers, h.enough_update ?_ ?_ hbefore.2, h.refusals⟩
    · rw [hplain.1]
      nofun
    · rw [hbefore.1]
      nofun

end Step

/-- In a run of careful steps the limiter is sound. -/
theorem sound_of_run (h : RunWhere (Step limit) (fun s a => careful s a = true) State.start s) :
    Sound limit s := by
  have hkept : Counted limit s ∧ Awake limit s := by
    refine RunWhere.keeps (I := fun s => Counted limit s ∧ Awake limit s) ?_ h
      ⟨start_counted, start_awake⟩
    intro s a s' hs hok hi
    exact ⟨hi.1.step hs, hi.2.step hi.1 hs hok⟩
  obtain ⟨hcounted, hawake⟩ := hkept
  refine ⟨hcounted.bounded, hawake.refusals, ?_⟩
  intro t ht hfree
  rcases hawake.enough ⟨t, by rw [ht]; rfl⟩ with ⟨u, hu⟩ | hmany
  · exact ⟨u, by rw [hu]; rfl⟩
  · exact hmany.exists_of_pos (Nat.sub_pos_of_lt hfree)

/-- A thread waits for the one slot, which another gives back. -/
theorem sound_of_run_handover : ∃ s : State Bool, s.held = 1 ∧ Sound 1 s := by
  have hrun : stepsWhere (step 1) careful State.start [.acquire true .TRY, .acquire false .WAIT,
      .takeBack false, .check false, .block false, .release true, .notifyOne true (some false),
      .notifyAll true, .check false, .retry false] = some _ := rfl
  exact ⟨_, rfl, sound_of_run (runWhere_of_stepsWhere hrun)⟩

/-- `TRY` is refused while no slot is held, because of a 1 that is about to be taken back, and a
release comes between the predicate and the sleep, so that a thread sleeps while a slot is free and
nothing is on its way to it. -/
theorem not_sound :
    (∃ s : State (Fin 3), Run (Step 1) State.start s ∧ s.refusals = [0, 1] ∧ ¬ Sound 1 s) ∧
    (∃ s : State (Fin 3), Run (Step 2) State.start s ∧ s.phase 2 = .blocked ∧ s.held = 1 ∧
      (∀ t, (s.phase t).pending = false) ∧ ¬ Sound 2 s) := by
  have hrefused : [.acquire 0 .TRY, .acquire 1 .TRY, .release 0, .acquire 2 .TRY].foldlM (step 1)
      (State.start : State (Fin 3)) = some _ := rfl
  have hlost : [.acquire 0 .TRY, .acquire 1 .TRY, .acquire 2 .WAIT, .takeBack 2, .check 2,
      .release 0, .notifyOne 0 none, .block 2].foldlM (step 2)
      (State.start : State (Fin 3)) = some _ := rfl
  refine ⟨⟨_, run_of_foldlM hrefused, rfl, ?_⟩, ⟨_, run_of_foldlM hlost, rfl, rfl, ?_, ?_⟩⟩
  · intro h
    exact absurd (h.refusals 0 List.mem_cons_self) (by decide)
  · decide
  · intro h
    obtain ⟨u, hu⟩ := h.awake 2 rfl (by decide)
    revert u
    decide

end Limiter

end Look
