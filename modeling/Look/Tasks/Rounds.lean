/-
What the timers keep to.

Every timer that was armed is in `entries_`, has a copy that waits to run, has started or was
cancelled.  As long as a periodic timer has a positive interval and a timer is cancelled when
no copy of its callback waits to run, the timers do what they are asked for
(`lawful_of_run`).
-/
import Look.Tasks.Timers

namespace Look

namespace Timers

variable {T : Type}

/-! ## What every careful step keeps -/

/-- The timer that a caller is about to put into `entries_`. -/
def Call.making : Call → Option (Int × Kind × Int)
  | .drawn id kind ms | .timed id kind ms _ => some (id, kind, ms)
  | _ => none

namespace State

def Armed (s : State T) (id : Int) (kind : Kind) (ms now : Int) : Prop :=
  .armed id kind ms now ∈ s.history

/-- How often the callback of a timer has started or may start before it is armed again. -/
def shots (s : State T) (id : Int) : Nat :=
  s.history.countP (Event.starts id) + s.cbs.countP (fun cb => cb.id == id) +
    s.entries.countP (fun p => p.1 == id)

end State

/-- The calls that are under way make timers that nobody has seen yet. -/
structure Making (s : State T) : Prop where
  given : ∀ {c id kind ms}, (s.calls c).making = some (id, kind, ms) → id ∈ s.ids
  fresh : ∀ {c id kind ms}, (s.calls c).making = some (id, kind, ms) →
    ∀ {kind ms now}, ¬ s.Armed id kind ms now
  apart : ∀ {c c' id kind kind' ms ms'}, (s.calls c).making = some (id, kind, ms) →
    (s.calls c').making = some (id, kind', ms') → c = c'
  positive : ∀ {c id ms}, (s.calls c).making = some (id, .every, ms) → 0 < ms
  known : ∀ {id kind ms now}, s.Armed id kind ms now → id ∈ s.ids

/-- The timers that were armed, what is left of them, and what was started of them. -/
structure Booked (s : State T) : Prop where
  nodup : (s.entries.map Prod.fst).Nodup
  unique : ∀ {id kind kind' ms ms' now now'}, s.Armed id kind ms now →
    s.Armed id kind' ms' now' → kind = kind' ∧ ms = ms' ∧ now = now'
  positive : ∀ {id ms now}, s.Armed id .every ms now → 0 < ms
  entry : ∀ {id e}, (id, e) ∈ s.entries → e.cancelled = false ∧ .erased id ∉ s.history ∧
    ∃ kind ms now, s.Armed id kind ms now ∧ e.intervalMs = kind.intervalMs ms ∧
      now + milliseconds ms ≤ e.nextFire
  copied : ∀ {cb}, cb ∈ s.cbs → cb.due ≤ s.clock ∧ .erased cb.id ∉ s.history ∧
    ∃ kind ms now, s.Armed cb.id kind ms now ∧ now + milliseconds ms ≤ cb.due
  started : ∀ {id due now}, .started id due now ∈ s.history → due ≤ now ∧
    ∃ kind ms made, s.Armed id kind ms made ∧ made + milliseconds ms ≤ due
  erased : ∀ {id}, .erased id ∈ s.history → ∃ kind ms now, s.Armed id kind ms now
  once : ∀ {id ms now}, s.Armed id .after ms now → s.shots id ≤ 1
  stays : ∀ {id ms now}, s.Armed id .every ms now → .erased id ∉ s.history →
    ∃ e, (id, e) ∈ s.entries
  returning : ∀ {c id}, s.calls c = .erased id → .erased id ∈ s.history
  returned : ∀ {id}, .cancelReturned id ∈ s.history → .erased id ∈ s.history
  silent : ∀ {id newer older}, s.history = newer ++ .cancelReturned id :: older →
    ∀ {due now}, .started id due now ∉ newer

section Keeps

variable {s s' : State T} {c : Option T} {id ms now : Int} {kind : Kind}

theorem Booked.lawful (h : Booked s) : Lawful s where
  notEarly := by
    intro id due now hstarted
    obtain ⟨hdue, kind, ms, made, harmed, hmade⟩ := h.started hstarted
    refine ⟨hdue, ?_⟩
    intro kind' ms' made' harmed'
    obtain ⟨-, rfl, rfl⟩ := h.unique harmed harmed'
    exact hmade.trans hdue
  once := by
    intro id ms made harmed
    have hshots := h.once harmed
    rw [State.shots] at hshots
    omega
  stays := h.stays
  silent := h.silent

theorem start_making {clock : Int} : Making (State.start clock : State T) where
  given := nofun
  fresh := nofun
  apart := nofun
  positive := nofun
  known := nofun

theorem start_booked {clock : Int} : Booked (State.start clock : State T) where
  nodup := List.nodup_nil
  unique := nofun
  positive := nofun
  entry := nofun
  copied := nofun
  started := nofun
  erased := nofun
  once := nofun
  stays := nofun
  returning := nofun
  returned := nofun
  silent := by
    intro id newer older hhistory
    exact absurd hhistory (by simp [State.start])

/-- A step that puts no timer into `entries_` and makes none. -/
theorem Making.of_calls (h : Making s)
    (hcalls : ∀ c x, (s'.calls c).making = some x → (s.calls c).making = some x)
    (hids : s'.ids = s.ids)
    (harmed : ∀ {id kind ms now}, s'.Armed id kind ms now → s.Armed id kind ms now) :
    Making s' where
  given hc := hids ▸ h.given (hcalls _ _ hc)
  fresh hc := fun harmed' => h.fresh (hcalls _ _ hc) (harmed harmed')
  apart hc hc' := h.apart (hcalls _ _ hc) (hcalls _ _ hc')
  positive hc := h.positive (hcalls _ _ hc)
  known harmed' := hids ▸ h.known (harmed harmed')

/-- A step that leaves the timers and their copies alone. -/
theorem Booked.of_same (h : Booked s) (hentries : s'.entries = s.entries) (hcbs : s'.cbs = s.cbs)
    (hhistory : s'.history = s.history) (hclock : s.clock ≤ s'.clock)
    (hcalls : ∀ {c id}, s'.calls c = .erased id → s.calls c = .erased id) : Booked s' := by
  have harmed : s'.Armed = s.Armed := by
    funext id kind ms now
    rw [State.Armed, State.Armed, hhistory]
  have hshots : s'.shots = s.shots := by
    funext id
    rw [State.shots, State.shots, hhistory, hcbs, hentries]
  constructor
  case copied =>
    intro cb hcb
    rw [hcbs] at hcb
    rw [hhistory, harmed]
    obtain ⟨hdue, hrest⟩ := h.copied hcb
    exact ⟨hdue.trans hclock, hrest⟩
  case returning =>
    intro c id hc
    rw [hhistory]
    exact h.returning (hcalls hc)
  all_goals simp only [hentries, hhistory, harmed, hshots]
  · exact h.nodup
  · exact h.unique
  · exact h.positive
  · exact h.entry
  · exact h.started
  · exact h.erased
  · exact h.once
  · exact h.stays
  · exact h.returned
  · exact h.silent

/-- One event more, which no cancelled timer allows to be a start. -/
theorem silent_cons {history : List Event} {e : Event}
    (h : ∀ {id newer older}, history = newer ++ .cancelReturned id :: older →
      ∀ {due now}, .started id due now ∉ newer)
    (he : ∀ {id due now}, e = .started id due now → .cancelReturned id ∉ history)
    {id : Int} {newer older : List Event} (heq : e :: history = newer ++ .cancelReturned id :: older)
    {due now : Int} : .started id due now ∉ newer := by
  cases newer with
  | nil => exact List.not_mem_nil
  | cons e' newer =>
    rw [List.cons_append, List.cons.injEq] at heq
    obtain ⟨rfl, hhistory⟩ := heq
    rw [List.mem_cons, not_or]
    refine ⟨?_, h hhistory⟩
    intro hstarted
    refine he hstarted.symm ?_
    rw [hhistory]
    exact List.mem_append_right _ List.mem_cons_self

/-- An id that no timer had is in no entry and no copy, and nothing of it has started. -/
theorem Booked.shots_eq_zero (h : Booked s) (hfresh : ∀ kind ms now, ¬ s.Armed id kind ms now) :
    s.shots id = 0 := by
  rw [State.shots, Nat.add_eq_zero_iff, Nat.add_eq_zero_iff, List.countP_eq_zero,
    List.countP_eq_zero, List.countP_eq_zero]
  refine ⟨⟨?_, ?_⟩, ?_⟩
  · intro e he hstarts
    cases e with
    | started id' due now =>
      obtain rfl : id' = id := by simpa [Event.starts] using hstarts
      obtain ⟨-, kind, ms, made, harmed, -⟩ := h.started he
      exact hfresh kind ms made harmed
    | _ => cases hstarts
  · intro cb hcb hid
    obtain rfl : cb.id = id := by simpa using hid
    obtain ⟨-, -, kind, ms, made, harmed, -⟩ := h.copied hcb
    exact hfresh kind ms made harmed
  · intro p hp hid
    obtain rfl : p.1 = id := by simpa using hid
    obtain ⟨-, -, kind, ms, made, harmed, -⟩ := h.entry (e := p.2) hp
    exact hfresh kind ms made harmed

theorem countP_key {entries : List (Int × Entry)} :
    entries.countP (fun p => p.1 == id) = (entries.map Prod.fst).count id := by
  rw [List.count, List.countP_map]
  rfl

section Calls

variable [DecidableEq T]

theorem making_update {call : Call} {c' : Option T} {x : Int × Kind × Int}
    (h : (Function.update s.calls c call c').making = some x) :
    (c' = c ∧ call.making = some x) ∨ (c' ≠ c ∧ (s.calls c').making = some x) := by
  by_cases hc : c' = c
  · subst hc
    rw [Function.update_self] at h
    exact .inl ⟨rfl, h⟩
  · rw [Function.update_of_ne hc] at h
    exact .inr ⟨hc, h⟩

/-- A caller that makes no other timer. -/
theorem Making.setCall {call : Call} (h : Making s)
    (hcall : ∀ x, call.making = some x → (s.calls c).making = some x) :
    Making (s.setCall c call) := by
  refine h.of_calls ?_ rfl id
  intro c' x hx
  rcases making_update hx with ⟨rfl, hcall'⟩ | ⟨-, hold⟩
  · exact hcall x hcall'
  · exact hold

theorem Making.call {nextId : Int} (h : Making s) (hfresh : s.nextId ∉ s.ids)
    (hpositive : kind = .every → 0 < ms) :
    Making { s.setCall c (.drawn s.nextId kind ms) with
      nextId := nextId, ids := s.nextId :: s.ids } where
  given := by
    intro c' id' kind' ms' hc
    rcases making_update hc with ⟨-, hc⟩ | ⟨-, hc⟩
    · cases hc
      exact List.mem_cons_self
    · exact List.mem_cons_of_mem _ (h.given hc)
  fresh := by
    intro c' id' kind' ms' hc kind'' ms'' now' harmed
    rcases making_update hc with ⟨-, hc⟩ | ⟨-, hc⟩
    · cases hc
      exact hfresh (h.known harmed)
    · exact h.fresh hc harmed
  apart := by
    intro c1 c2 id' kind1 kind2 ms1 ms2 h1 h2
    rcases making_update h1 with ⟨hc1, hnew1⟩ | ⟨-, hold1⟩ <;>
      rcases making_update h2 with ⟨hc2, hnew2⟩ | ⟨-, hold2⟩
    · exact hc1.trans hc2.symm
    · cases hnew1
      exact absurd (h.given hold2) hfresh
    · cases hnew2
      exact absurd (h.given hold1) hfresh
    · exact h.apart hold1 hold2
  positive := by
    intro c' id' ms' hc
    rcases making_update hc with ⟨-, hc⟩ | ⟨-, hc⟩
    · cases hc
      exact hpositive rfl
    · exact h.positive hc
  known harmed := List.mem_cons_of_mem _ (h.known harmed)

theorem Making.arm (h : Making s) (hc : (s.calls c).making = some (id, kind, ms)) :
    Making (s.arm c id kind ms now) where
  given := by
    intro c' id' kind' ms' hc'
    rcases making_update hc' with ⟨-, hc'⟩ | ⟨-, hc'⟩
    · cases hc'
    · exact h.given hc'
  fresh := by
    intro c' id' kind' ms' hc' kind'' ms'' now' harmed
    rcases making_update hc' with ⟨-, hc'⟩ | ⟨hne, hc'⟩
    · cases hc'
    · rcases List.mem_cons.mp harmed with heq | harmed
      · cases heq
        exact hne (h.apart hc' hc)
      · exact h.fresh hc' harmed
  apart := by
    intro c1 c2 id' kind1 kind2 ms1 ms2 h1 h2
    rcases making_update h1 with ⟨-, h1⟩ | ⟨-, h1⟩
    · cases h1
    · rcases making_update h2 with ⟨-, h2⟩ | ⟨-, h2⟩
      · cases h2
      · exact h.apart h1 h2
  positive := by
    intro c' id' ms' hc'
    rcases making_update hc' with ⟨-, hc'⟩ | ⟨-, hc'⟩
    · cases hc'
    · exact h.positive hc'
  known := by
    intro id' kind' ms' now' harmed
    rcases List.mem_cons.mp harmed with heq | harmed
    · cases heq
      exact h.given hc
    · exact h.known harmed

theorem returning_update {call : Call} {c' : Option T}
    (h : Function.update s.calls c call c' = .erased id) :
    call = .erased id ∨ s.calls c' = .erased id := by
  by_cases hc : c' = c
  · subst hc
    rw [Function.update_self] at h
    exact .inl h
  · rw [Function.update_of_ne hc] at h
    exact .inr h

theorem Booked.arm (h : Booked s) (hm : Making s)
    (hc : s.calls c = .timed id kind ms now) : Booked (s.arm c id kind ms now) := by
  have hmaking : (s.calls c).making = some (id, kind, ms) := by rw [hc]; rfl
  have hfresh : ∀ kind ms now, ¬ s.Armed id kind ms now := fun _ _ _ => hm.fresh hmaking
  have hold : ∀ {id' kind' ms' now'}, s.Armed id' kind' ms' now' →
      (s.arm c id kind ms now).Armed id' kind' ms' now' := List.mem_cons_of_mem _
  have hnone : .erased id ∉ s.history := by
    intro herased
    obtain ⟨kind', ms', now', harmed⟩ := h.erased herased
    exact hfresh _ _ _ harmed
  constructor
  case nodup => exact SortedMap.nodup_put h.nodup
  case unique =>
    intro id' kind1 kind2 ms1 ms2 now1 now2 h1 h2
    rcases List.mem_cons.mp h1 with h1 | h1 <;> rcases List.mem_cons.mp h2 with h2 | h2
    · cases h1
      cases h2
      exact ⟨rfl, rfl, rfl⟩
    · cases h1
      exact absurd h2 (hfresh _ _ _)
    · cases h2
      exact absurd h1 (hfresh _ _ _)
    · exact h.unique h1 h2
  case positive =>
    intro id' ms' now' harmed
    rcases List.mem_cons.mp harmed with heq | harmed
    · cases heq
      exact hm.positive hmaking
    · exact h.positive harmed
  case entry =>
    intro id' e he
    rcases SortedMap.mem_put.mp he with ⟨rfl, rfl⟩ | ⟨he, -⟩
    · exact ⟨rfl, by simpa [State.arm] using hnone, kind, ms, now, List.mem_cons_self, rfl, le_refl _⟩
    · obtain ⟨hcancelled, herased, kind', ms', now', harmed, hrest⟩ := h.entry he
      exact ⟨hcancelled, by simpa [State.arm] using herased, kind', ms', now', hold harmed, hrest⟩
  case copied =>
    intro cb hcb
    obtain ⟨hdue, herased, kind', ms', now', harmed, hrest⟩ := h.copied hcb
    exact ⟨hdue, by simpa [State.arm] using herased, kind', ms', now', hold harmed, hrest⟩
  case started =>
    intro id' due now' hstarted
    have hstarted : .started id' due now' ∈ s.history := by simpa [State.arm] using hstarted
    obtain ⟨hdue, kind', ms', made, harmed, hrest⟩ := h.started hstarted
    exact ⟨hdue, kind', ms', made, hold harmed, hrest⟩
  case erased =>
    intro id' herased
    have herased : .erased id' ∈ s.history := by simpa [State.arm] using herased
    obtain ⟨kind', ms', now', harmed⟩ := h.erased herased
    exact ⟨kind', ms', now', hold harmed⟩
  case once =>
    intro id' ms' now' harmed
    have hshots : (s.arm c id kind ms now).shots id' ≤
        s.shots id' + if id' = id then 1 else 0 := by
      have hcbs : (s.arm c id kind ms now).cbs = s.cbs := rfl
      rw [State.shots, State.shots, hcbs, countP_key, countP_key, State.arm,
        List.countP_cons_of_neg (by simp [Event.starts]), SortedMap.keys_put.count_eq]
      split
      · rename_i heq
        subst heq
        rw [List.count_cons_self, SortedMap.count_keys_erase_self]
        omega
      · rename_i hne
        rw [List.count_cons_of_ne (Ne.symm hne), SortedMap.count_keys_erase_of_ne hne]
        omega
    rcases List.mem_cons.mp harmed with heq | hbefore
    · cases heq
      rw [h.shots_eq_zero hfresh, if_pos rfl] at hshots
      exact hshots
    · have hne : id' ≠ id := by
        rintro rfl
        exact hfresh _ _ _ hbefore
      rw [if_neg hne] at hshots
      exact hshots.trans (h.once hbefore)
  case stays =>
    intro id' ms' now' harmed herased
    by_cases hid : id' = id
    · exact ⟨_, SortedMap.mem_put.mpr (.inl ⟨hid, rfl⟩)⟩
    · rcases List.mem_cons.mp harmed with heq | harmed
      · cases heq
        exact absurd rfl hid
      · obtain ⟨e, he⟩ := h.stays harmed fun hmem => herased (List.mem_cons_of_mem _ hmem)
        exact ⟨e, SortedMap.mem_put.mpr (.inr ⟨he, hid⟩)⟩
  case returning =>
    intro c' id' hc'
    rcases returning_update hc' with heq | hc'
    · cases heq
    · exact List.mem_cons_of_mem _ (h.returning hc')
  case returned =>
    intro id' hreturned
    have hreturned : .cancelReturned id' ∈ s.history := by simpa [State.arm] using hreturned
    exact List.mem_cons_of_mem _ (h.returned hreturned)
  case silent => 
    refine silent_cons h.silent ?_
    intro id' due now' heq
    cases heq

/-- `cancel` of a timer that was armed, when no copy of its callback waits. -/
theorem Booked.erase (h : Booked s) (harmed : ∃ kind ms now, s.Armed id kind ms now)
    (hcbs : ∀ cb ∈ s.cbs, cb.id ≠ id) : Booked (s.erase c id) := by
  have hrecorded : ∀ {id' kind' ms' now'}, (s.erase c id).Armed id' kind' ms' now' →
      s.Armed id' kind' ms' now' := by
    intro id' kind' ms' now' harmed'
    simpa [State.Armed, State.erase] using harmed'
  have hold : ∀ {id' kind' ms' now'}, s.Armed id' kind' ms' now' →
      (s.erase c id).Armed id' kind' ms' now' := List.mem_cons_of_mem _
  constructor
  case nodup => exact SortedMap.nodup_erase h.nodup
  case unique => exact fun h1 h2 => h.unique (hrecorded h1) (hrecorded h2)
  case positive => exact fun harmed' => h.positive (hrecorded harmed')
  case entry =>
    intro id' e he
    obtain ⟨he, hne⟩ := SortedMap.mem_erase.mp he
    obtain ⟨hcancelled, herased, kind', ms', now', harmed', hrest⟩ := h.entry he
    refine ⟨hcancelled, ?_, kind', ms', now', hold harmed', hrest⟩
    simpa [State.erase, hne] using herased
  case copied =>
    intro cb hcb
    obtain ⟨hdue, herased, kind', ms', now', harmed', hrest⟩ := h.copied hcb
    refine ⟨hdue, ?_, kind', ms', now', hold harmed', hrest⟩
    simpa [State.erase, hcbs cb hcb] using herased
  case started =>
    intro id' due now' hstarted
    have hstarted : .started id' due now' ∈ s.history := by simpa [State.erase] using hstarted
    obtain ⟨hdue, kind', ms', made, harmed', hrest⟩ := h.started hstarted
    exact ⟨hdue, kind', ms', made, hold harmed', hrest⟩
  case erased =>
    intro id' herased
    rcases List.mem_cons.mp herased with heq | herased
    · cases heq
      obtain ⟨kind', ms', now', harmed'⟩ := harmed
      exact ⟨kind', ms', now', hold harmed'⟩
    · obtain ⟨kind', ms', now', harmed'⟩ := h.erased herased
      exact ⟨kind', ms', now', hold harmed'⟩
  case once =>
    intro id' ms' now' harmed'
    refine le_trans ?_ (h.once (hrecorded harmed'))
    have hcbs' : (s.erase c id).cbs = s.cbs := rfl
    have hle : ((SortedMap.erase id s.entries).map Prod.fst).count id' ≤
        (s.entries.map Prod.fst).count id' :=
      ((List.filter_sublist (p := fun p : Int × Entry => decide (p.1 ≠ id))).map _).count_le _
    rw [State.shots, State.shots, hcbs', countP_key, countP_key, State.erase,
      List.countP_cons_of_neg (by simp [Event.starts])]
    exact Nat.add_le_add_left hle _
  case stays =>
    intro id' ms' now' harmed' herased
    have hne : id' ≠ id ∧ .erased id' ∉ s.history := by simpa [State.erase] using herased
    obtain ⟨e, he⟩ := h.stays (hrecorded harmed') hne.2
    exact ⟨e, SortedMap.mem_erase.mpr ⟨he, hne.1⟩⟩
  case returning =>
    intro c' id' hc'
    rcases returning_update hc' with heq | hc'
    · cases heq
      exact List.mem_cons_self
    · exact List.mem_cons_of_mem _ (h.returning hc')
  case returned =>
    intro id' hreturned
    have hreturned : .cancelReturned id' ∈ s.history := by simpa [State.erase] using hreturned
    exact List.mem_cons_of_mem _ (h.returned hreturned)
  case silent =>
    refine silent_cons h.silent ?_
    intro id' due now' heq
    cases heq

theorem Booked.setCall {call : Call} (h : Booked s)
    (hcall : ∀ id, call = .erased id → s.calls c = .erased id) : Booked (s.setCall c call) := by
  refine h.of_same rfl rfl rfl (le_refl _) ?_
  intro c' id' hc'
  by_cases hc : c' = c
  · subst hc
    exact hcall id' ((Function.update_self ..).symm.trans hc')
  · exact (Function.update_of_ne hc ..).symm.trans hc'

end Calls

/-- An event that starts, arms or erases nothing. -/
theorem Booked.cancelReturned (h : Booked s) (herased : .erased id ∈ s.history) :
    Booked (s.record (.cancelReturned id)) := by
  have harmed : (s.record (.cancelReturned id)).Armed = s.Armed := by
    funext id' kind' ms' now'
    simp [State.Armed, State.record]
  have hshots : (s.record (.cancelReturned id)).shots = s.shots := by
    funext id'
    rw [State.shots, State.record, List.countP_cons_of_neg (by simp [Event.starts])]
    rfl
  have hstarted : ∀ {id' due now'}, .started id' due now' ∈ (s.record (.cancelReturned id)).history →
      .started id' due now' ∈ s.history := by
    intro id' due now' hmem
    simpa [State.record] using hmem
  have herased_iff : ∀ id', .erased id' ∈ (s.record (.cancelReturned id)).history ↔
      .erased id' ∈ s.history := by
    intro id'
    simp [State.record]
  constructor
  case started => exact fun hmem => harmed ▸ h.started (hstarted hmem)
  case returned =>
    intro id' hreturned
    rw [herased_iff]
    rcases List.mem_cons.mp hreturned with heq | hreturned
    · cases heq
      exact herased
    · exact h.returned hreturned
  case silent =>
    refine silent_cons h.silent ?_
    intro id' due now' heq
    cases heq
  case nodup => exact h.nodup
  case returning => exact fun hc => (herased_iff _).mpr (h.returning hc)
  all_goals simp only [harmed, hshots, herased_iff]
  · exact h.unique
  · exact h.positive
  · exact h.entry
  · exact h.copied
  · exact h.erased
  · exact h.once
  · exact h.stays

/-- The callback that was copied first starts. -/
theorem Booked.starts {cb : Callback} {cbs : List Callback} (h : Booked s)
    (hloop : s.loop = .round (cb :: cbs)) :
    Booked ({ s with loop := .inside cb.id cbs }.record (.started cb.id cb.due s.clock)) := by
  have hcbs : s.cbs = cb :: cbs := by rw [State.cbs, hloop]
  have hcopied := h.copied (show cb ∈ s.cbs by rw [hcbs]; exact List.mem_cons_self)
  have hrecorded : ∀ {id' kind' ms' now'},
      .armed id' kind' ms' now' ∈ .started cb.id cb.due s.clock :: s.history →
      s.Armed id' kind' ms' now' := by
    intro id' kind' ms' now' harmed
    simpa [State.Armed] using harmed
  have hold : ∀ {id' kind' ms' now'}, s.Armed id' kind' ms' now' →
      .armed id' kind' ms' now' ∈ .started cb.id cb.due s.clock :: s.history :=
    List.mem_cons_of_mem _
  constructor
  case nodup => exact h.nodup
  case unique => exact fun h1 h2 => h.unique (hrecorded h1) (hrecorded h2)
  case positive => exact fun harmed => h.positive (hrecorded harmed)
  case entry =>
    intro id' e he
    obtain ⟨hcancelled, herased, kind', ms', now', harmed, hrest⟩ := h.entry he
    exact ⟨hcancelled, by simpa [State.record] using herased, kind', ms', now', hold harmed, hrest⟩
  case copied =>
    intro cb' hcb'
    have hmem : cb' ∈ s.cbs := by
      rw [hcbs]
      exact List.mem_cons_of_mem _ hcb'
    obtain ⟨hdue, herased, kind', ms', now', harmed, hrest⟩ := h.copied hmem
    exact ⟨hdue, by simpa [State.record] using herased, kind', ms', now', hold harmed, hrest⟩
  case started =>
    intro id' due now' hstarted
    rcases List.mem_cons.mp hstarted with heq | hstarted
    · cases heq
      obtain ⟨hdue, -, kind', ms', made, harmed, hrest⟩ := hcopied
      exact ⟨hdue, kind', ms', made, hold harmed, hrest⟩
    · obtain ⟨hdue, kind', ms', made, harmed, hrest⟩ := h.started hstarted
      exact ⟨hdue, kind', ms', made, hold harmed, hrest⟩
  case erased =>
    intro id' herased
    have herased : .erased id' ∈ s.history := by simpa [State.record] using herased
    obtain ⟨kind', ms', now', harmed⟩ := h.erased herased
    exact ⟨kind', ms', now', hold harmed⟩
  case once =>
    intro id' ms' now' harmed
    refine le_of_eq_of_le ?_ (h.once (hrecorded harmed))
    -- the copy that is gone is the start that was recorded
    have hstarts : Event.starts id' (.started cb.id cb.due s.clock) = (cb.id == id') := rfl
    rw [State.shots, State.shots, hcbs, State.record, List.countP_cons, List.countP_cons, hstarts,
      State.cbs]
    dsimp only
    omega
  case stays =>
    intro id' ms' now' harmed herased
    exact h.stays (hrecorded harmed) fun hmem => herased (List.mem_cons_of_mem _ hmem)
  case returning => exact fun hc => List.mem_cons_of_mem _ (h.returning hc)
  case returned =>
    intro id' hreturned
    have hreturned : .cancelReturned id' ∈ s.history := by simpa [State.record] using hreturned
    exact List.mem_cons_of_mem _ (h.returned hreturned)
  case silent =>
    refine silent_cons h.silent ?_
    intro id' due now' heq hreturned
    cases heq
    exact hcopied.2.1 (h.returned hreturned)

/-! ### A round -/

theorem mem_dueNow {entries : List (Int × Entry)} {cb : Callback} (h : cb ∈ dueNow now entries) :
    ∃ e, (cb.id, e) ∈ entries ∧ cb.due = e.nextFire ∧ e.nextFire ≤ now := by
  obtain ⟨p, hp, hcb⟩ := List.mem_filterMap.mp h
  split at hcb
  · rename_i hdue
    cases hcb
    rw [Bool.and_eq_true, decide_eq_true_eq] at hdue
    exact ⟨p.2, hp, rfl, hdue.2⟩
  · cases hcb

/-- What a round keeps of an entry: a periodic timer is due later. -/
theorem rearm_cases {p q : Int × Entry} (h : rearm now p = some q) :
    q.1 = p.1 ∧ q.2.cancelled = p.2.cancelled ∧ q.2.intervalMs = p.2.intervalMs ∧
      p.2.nextFire ≤ q.2.nextFire := by
  rw [rearm] at h
  split at h
  · cases h
  · split at h
    · rename_i hdue
      split at h
      · rename_i hpositive
        cases h
        refine ⟨rfl, rfl, rfl, ?_⟩
        show p.2.nextFire ≤ now + p.2.intervalMs * 1000000
        omega
      · cases h
    · cases h
      exact ⟨rfl, rfl, rfl, le_refl _⟩

/-- A periodic timer stays. -/
theorem rearm_periodic (now : Int) {p : Int × Entry} (hcancelled : p.2.cancelled = false)
    (hpositive : 0 < p.2.intervalMs) : ∃ q, rearm now p = some q ∧ p.1 = q.1 := by
  rw [rearm, hcancelled, if_neg Bool.false_ne_true, if_pos hpositive]
  split
  · exact ⟨_, rfl, rfl⟩
  · exact ⟨_, rfl, rfl⟩

theorem keys_rearm (entries : List (Int × Entry)) :
    ((entries.filterMap (rearm now)).map Prod.fst).Sublist (entries.map Prod.fst) := by
  induction entries with
  | nil => exact List.Sublist.slnil
  | cons p entries ih =>
    rw [List.filterMap_cons]
    cases hp : rearm now p with
    | none => exact ih.cons _
    | some q =>
      rw [List.map_cons, List.map_cons, (rearm_cases hp).1]
      exact ih.cons_cons _

/-- Two conditions that never hold together. -/
theorem countP_add_le {α : Type} {p q r : α → Bool} {xs : List α}
    (hp : ∀ x ∈ xs, p x = true → r x = true ∧ q x = false)
    (hq : ∀ x ∈ xs, q x = true → r x = true) : xs.countP p + xs.countP q ≤ xs.countP r := by
  induction xs with
  | nil => exact Nat.le_refl _
  | cons x xs ih =>
    have ih := ih (fun y hy => hp y (List.mem_cons_of_mem _ hy))
      fun y hy => hq y (List.mem_cons_of_mem _ hy)
    have hpx := hp x List.mem_cons_self
    have hqx := hq x List.mem_cons_self
    rw [List.countP_cons, List.countP_cons, List.countP_cons]
    cases hpv : p x
    · cases hqv : q x
      · simp only [Bool.false_eq_true, if_false]
        omega
      · rw [hqx hqv]
        simp only [Bool.false_eq_true, if_false, if_true]
        omega
    · obtain ⟨hr, hqv⟩ := hpx hpv
      rw [hr, hqv]
      simp only [Bool.false_eq_true, if_false, if_true]
      omega

/-- A one-shot timer is copied or stays, and not both. -/
theorem count_round (now : Int) {entries : List (Int × Entry)}
    (h : ∀ e, (id, e) ∈ entries → e.intervalMs ≤ 0) :
    (dueNow now entries).countP (fun cb => cb.id == id) +
      (entries.filterMap (rearm now)).countP (fun p => p.1 == id) ≤
        entries.countP (fun p => p.1 == id) := by
  rw [dueNow, List.countP_filterMap, List.countP_filterMap]
  refine countP_add_le ?_ ?_
  · intro p hp hcopied
    split at hcopied
    · rename_i hdue
      rw [Bool.and_eq_true, decide_eq_true_eq, Bool.not_eq_true'] at hdue
      have hid : p.1 = id := by simpa using hcopied
      subst hid
      have hone : ¬ 0 < p.2.intervalMs := not_lt.mpr (h p.2 hp)
      rw [rearm, hdue.1, if_neg Bool.false_ne_true, if_pos hdue.2, if_neg hone]
      exact ⟨beq_self_eq_true _, rfl⟩
    · cases hcopied
  · intro p hp hstays
    cases hrearm : rearm now p with
    | none =>
      rw [hrearm] at hstays
      cases hstays
    | some q =>
      rw [hrearm] at hstays
      rw [← (rearm_cases hrearm).1]
      exact hstays

theorem Booked.collect {deadline : Int} (h : Booked s) (hloop : s.loop = .waiting deadline) :
    Booked s.collect := by
  have hcbs : s.cbs = [] := by rw [State.cbs, hloop]
  constructor
  case nodup => exact h.nodup.sublist (keys_rearm _)
  case unique => exact h.unique
  case positive => exact h.positive
  case entry =>
    intro id' e he
    obtain ⟨p, hp, hrearm⟩ := List.mem_filterMap.mp he
    obtain ⟨hid, hcancelled, hinterval, hlater⟩ := rearm_cases hrearm
    obtain ⟨hp1, hp2, kind', ms', now', harmed, hms, hfire⟩ :=
      h.entry (show (p.1, p.2) ∈ s.entries from hp)
    have hid : id' = p.1 := hid
    subst hid
    exact ⟨hcancelled.trans hp1, hp2, kind', ms', now', harmed, hinterval.trans hms,
      hfire.trans hlater⟩
  case copied =>
    intro cb hcb
    obtain ⟨e, he, hdue, hnow⟩ := mem_dueNow hcb
    obtain ⟨-, herased, kind', ms', now', harmed, -, hfire⟩ := h.entry he
    exact ⟨hdue.le.trans hnow, herased, kind', ms', now', harmed, hdue ▸ hfire⟩
  case started => exact h.started
  case erased => exact h.erased
  case once =>
    intro id' ms' now' harmed
    have hone : ∀ e, (id', e) ∈ s.entries → e.intervalMs ≤ 0 := by
      intro e he
      obtain ⟨-, -, kind2, ms2, now2, harmed2, hinterval, -⟩ := h.entry he
      obtain ⟨rfl, -⟩ := h.unique harmed harmed2
      exact hinterval.le
    have hround := count_round s.clock hone
    have honce := h.once harmed
    rw [State.shots, hcbs, List.countP_nil, Nat.add_zero] at honce
    refine le_trans ?_ honce
    rw [State.shots, Nat.add_assoc]
    exact Nat.add_le_add_left hround _
  case stays =>
    intro id' ms' now' harmed herased
    obtain ⟨e, he⟩ := h.stays harmed herased
    obtain ⟨hcancelled, -, kind2, ms2, now2, harmed2, hinterval, -⟩ := h.entry he
    obtain ⟨rfl, rfl, -⟩ := h.unique harmed harmed2
    have hpositive : 0 < e.intervalMs := by
      rw [hinterval]
      exact h.positive harmed
    obtain ⟨q, hq, hid⟩ := rearm_periodic s.clock (p := (id', e)) hcancelled hpositive
    subst hid
    exact ⟨q.2, List.mem_filterMap.mpr ⟨_, he, hq⟩⟩
  case returning => exact h.returning
  case returned => exact h.returned
  case silent => exact h.silent

end Keeps

/-! ## Runs -/

section Runs

variable {s s' : State T} {a : Action T}

theorem careful_call {c : Option T} {kind : Kind} {ms : Int}
    (h : careful s (.call c kind ms) = true) : s.nextId ∉ s.ids ∧ (kind = .every → 0 < ms) := by
  rw [careful, Bool.and_eq_true, Bool.not_eq_true', List.contains_eq_mem,
    decide_eq_false_iff_not] at h
  refine ⟨h.1, ?_⟩
  rintro rfl
  simpa using h.2

theorem careful_cancel {c : Option T} {id : Int} (h : careful s (.cancel c id) = true) :
    (∃ kind ms now, s.Armed id kind ms now) ∧ ∀ cb ∈ s.cbs, cb.id ≠ id := by
  rw [careful, Bool.and_eq_true, List.any_eq_true] at h
  obtain ⟨⟨e, he, harms⟩, hcbs⟩ := h
  refine ⟨?_, ?_⟩
  · cases e with
    | armed id' kind ms now =>
      obtain rfl : id' = id := by simpa [Event.arms] using harms
      exact ⟨kind, ms, now, he⟩
    | _ => cases harms
  · intro cb hcb
    simpa using List.all_eq_true.mp hcbs cb hcb

variable [DecidableEq T]

/-- A careful step keeps what is known of the timers and of the calls. -/
theorem step_keeps (hs : Step s a s') (hok : careful s a = true) (hm : Making s) (hb : Booked s) :
    Making s' ∧ Booked s' := by
  rw [Step] at hs
  cases a with
  | tick now =>
    rw [step] at hs
    split at hs
    · rename_i hclock
      cases hs
      exact ⟨hm.of_calls (fun _ _ => id) rfl id, hb.of_same rfl rfl rfl hclock id⟩
    · cases hs
  | call c kind ms =>
    obtain ⟨hfresh, hpositive⟩ := careful_call hok
    rw [step] at hs
    split at hs
    · cases hs
      refine ⟨hm.call hfresh hpositive, ?_⟩
      have hcall : Booked (s.setCall c (.drawn s.nextId kind ms)) := hb.setCall nofun
      exact hcall.of_same rfl rfl rfl (le_refl _) id
    · cases hs
  | readClock c =>
    rw [step] at hs
    split at hs
    · rename_i id kind ms hcall
      cases hs
      refine ⟨hm.setCall ?_, hb.setCall nofun⟩
      intro x hx
      rw [hcall]
      exact hx
    · cases hs
  | insert c =>
    rw [step] at hs
    split at hs
    · rename_i id kind ms now hcall
      cases hs
      exact ⟨hm.arm (by rw [hcall]; rfl), hb.arm hm hcall⟩
    · cases hs
  | cancel c id =>
    obtain ⟨harmed, hcbs⟩ := careful_cancel hok
    rw [step] at hs
    split at hs
    · cases hs
      have hcall : Making (s.setCall c (.erased id)) := hm.setCall nofun
      refine ⟨hcall.of_calls (fun _ _ h => h) rfl ?_, hb.erase harmed hcbs⟩
      intro id' kind ms now harmed'
      simpa [State.Armed, State.erase, State.setCall] using harmed'
    · cases hs
  | notifyAndReturn c =>
    rw [step] at hs
    split at hs
    · cases hs
      exact ⟨hm.setCall nofun, hb.setCall fun _ h => nomatch h⟩
    · rename_i id hcall
      cases hs
      have hidle : Making (s.setCall c .idle) := hm.setCall nofun
      have hreturned : Booked (s.setCall c .idle) := hb.setCall fun _ h => nomatch h
      refine ⟨hidle.of_calls (fun _ _ h => h) rfl ?_,
        hreturned.cancelReturned (hb.returning hcall)⟩
      intro id' kind ms now harmed'
      simpa [State.Armed, State.record, State.setCall] using harmed'
    · cases hs
  | shutdown =>
    cases hs
    exact ⟨hm.of_calls (fun _ _ => id) rfl id, hb.of_same rfl rfl rfl (le_refl _) id⟩
  | sleep =>
    rw [step] at hs
    split at hs
    · rename_i hloop
      have hcbs : s.cbs = [] := by rw [State.cbs, hloop]
      split at hs
      · cases hs
        exact ⟨hm.of_calls (fun _ _ => id) rfl id, hb.of_same rfl hcbs.symm rfl (le_refl _) id⟩
      · cases hs
        exact ⟨hm.of_calls (fun _ _ => id) rfl id, hb.of_same rfl hcbs.symm rfl (le_refl _) id⟩
    · cases hs
  | wake =>
    rw [step] at hs
    split at hs
    · rename_i deadline hloop
      have hcbs : s.cbs = [] := by rw [State.cbs, hloop]
      split at hs
      · split at hs
        · cases hs
          exact ⟨hm.of_calls (fun _ _ => id) rfl id, hb.collect hloop⟩
        · cases hs
          exact ⟨hm.of_calls (fun _ _ => id) rfl id, hb.of_same rfl hcbs.symm rfl (le_refl _) id⟩
      · cases hs
    · cases hs
  | start =>
    rw [step] at hs
    split at hs
    · rename_i cb cbs hloop
      cases hs
      refine ⟨hm.of_calls (fun _ _ => id) rfl ?_, hb.starts hloop⟩
      intro id' kind ms now harmed
      simpa [State.Armed, State.record] using harmed
    · cases hs
  | finish =>
    rw [step] at hs
    split at hs
    · rename_i id cbs hloop
      have hcbs : s.cbs = cbs := by rw [State.cbs, hloop]
      split at hs
      · cases hs
        exact ⟨hm.of_calls (fun _ _ h => h) rfl fun h => h,
          hb.of_same rfl hcbs.symm rfl (le_refl _) fun h => h⟩
      · cases hs
    · cases hs

/-- In a run of careful steps the timers do what they are asked for. -/
theorem lawful_of_run {clock : Int}
    (h : RunWhere Step (fun s a => careful s a = true) (State.start clock) s) : Lawful s := by
  have hkept : Making s ∧ Booked s := by
    refine RunWhere.keeps (I := fun s => Making s ∧ Booked s) ?_ h ⟨start_making, start_booked⟩
    intro s a s' hs hok hi
    exact step_keeps hs hok hi.1 hi.2
  exact hkept.2.lawful

/-- A periodic timer fires and is cancelled. -/
theorem lawful_of_run_every : ∃ s : State Unit,
    s.history = [.cancelReturned 1, .erased 1, .started 1 1000000 1000000, .armed 1 .every 1 0] ∧
      Lawful s := by
  have hrun : stepsWhere step careful (State.start 0) [.call (some ()) .every 1,
      .readClock (some ()), .insert (some ()), .notifyAndReturn (some ()), .sleep, .tick 1000000,
      .wake, .start, .cancel none 1, .notifyAndReturn none, .finish] = some _ := rfl
  exact ⟨_, rfl, lawful_of_run (runWhere_of_stepsWhere hrun)⟩

/-- `every` with 0 ms is taken for a one-shot timer, and a callback cancels a timer that is due in
the same round and starts all the same. -/
theorem not_lawful :
    (∃ s : State Unit, Run Step (State.start 0) s ∧ s.history = [.armed 1 .every 0 0] ∧
      s.entries = [] ∧ ¬ Lawful s) ∧
    (∃ s : State Unit, Run Step (State.start 0) s ∧
      (∃ older, s.history = .started 2 0 0 :: .cancelReturned 2 :: older) ∧ ¬ Lawful s) := by
  have hzero : [.call (some ()) .every 0, .readClock (some ()), .insert (some ()),
      .notifyAndReturn (some ()), .sleep, .wake].foldlM step (State.start 0) = some _ := rfl
  have hcopied : [.call (some ()) .after 0, .readClock (some ()), .insert (some ()),
      .notifyAndReturn (some ()), .call (some ()) .after 0, .readClock (some ()),
      .insert (some ()), .notifyAndReturn (some ()), .sleep, .wake, .start, .cancel none 2,
      .notifyAndReturn none, .finish, .start].foldlM step (State.start 0) = some _ := rfl
  refine ⟨⟨_, run_of_foldlM hzero, rfl, rfl, ?_⟩, ⟨_, run_of_foldlM hcopied, ⟨_, rfl⟩, ?_⟩⟩
  · intro h
    have hnot : Event.erased 1 ∉ [Event.armed 1 .every 0 0] := by simp
    obtain ⟨e, he⟩ := h.stays List.mem_cons_self hnot
    cases he
  · intro h
    exact h.silent (show _ = [Event.started 2 0 0] ++ .cancelReturned 2 :: _ from rfl)
      List.mem_cons_self

end Runs

end Timers

end Look
