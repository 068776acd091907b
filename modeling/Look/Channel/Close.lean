/-
Who is left behind when a channel is closed.

On a closed channel the predicate of every wait holds, so a party that waits must
have a notification pending.  `close_chan` notifies both condition variables.
`CHAN_CLOSE` of the VM notifies the receivers only: a sender that waits for room or
for the receipt of its value stays blocked, unless a notification was already
pending for it.
-/
import Mathlib.Data.Fin.Basic
import Look.Channel.Chan

namespace Look

namespace Chan

open Sys

variable {P V : Type} {s t : Sys P V} {p : P}

/-- The party is blocked, the predicate of its wait holds, and no notification is
on its way to it. -/
def Stranded (s : Sys P V) (p : P) : Prop :=
  s.place p ≠ .away ∧ (s.place p).wakes s.chan = true ∧ s.notified p = false

/-- A VM closes the channel only when every sender that waits has a notification
pending. -/
def Label.SparesSenders (s : Sys P V) : Label P V → Prop
  | .chanClose => ∀ p, (s.place p).onNotFull = true → s.notified p = true
  | _ => True

/-- Once the channel is closed, whoever waits is notified. -/
def AllNotified (s : Sys P V) : Prop :=
  s.chan.closed = true → ∀ p, s.place p ≠ .away → s.notified p = true

theorem wakes_of_closed (hc : s.chan.closed = true) (hp : s.place p ≠ .away) :
    (s.place p).wakes s.chan = true := by
  cases hplace : s.place p with
  | away => exact absurd hplace hp
  | room send v => simp [Place.wakes, LookChannel.hasRoom, hc]
  | rendezvous send gen => simp [Place.wakes, LookChannel.taken, hc]
  | item => simp [Place.wakes, LookChannel.hasItem, hc]

theorem onNotFull_or_onNotEmpty {w : Place V} (hw : w ≠ .away) :
    w.onNotFull = true ∨ w.onNotEmpty = true := by
  cases w with
  | away => exact absurd rfl hw
  | room send v => exact Or.inl rfl
  | rendezvous send gen => exact Or.inl rfl
  | item => exact Or.inr rfl

theorem AllNotified.not_stranded (h : AllNotified s) (hc : s.chan.closed = true) :
    ¬ Stranded s p := by
  rintro ⟨hp, -, hn⟩
  rw [h hc p hp] at hn
  cases hn

/-- `AllNotified`, where the party that holds the lock does not count: it is not
blocked, whatever its flag says. -/
def OthersNotified (s : Sys P V) (p : P) : Prop :=
  s.chan.closed = true → ∀ q, q ≠ p → s.place q ≠ .away → s.notified q = true

theorem AllNotified.others (h : AllNotified s) (p : P) : OthersNotified s p :=
  fun hc q _ hq => h hc q hq

/-- `CHAN_CLOSE` strands exactly the senders that wait without a notification. -/
theorem chanClose_stranded_iff : Stranded s.chanClose p ↔
    (s.place p).onNotFull = true ∧ s.notified p = false := by
  constructor
  · rintro ⟨hp, -, hn⟩
    simp only [Sys.chanClose, Sys.setClosed, Sys.notifyAll, Bool.or_eq_false_iff] at hn
    rcases onNotFull_or_onNotEmpty hp with hfull | hempty
    · exact ⟨hfull, hn.1⟩
    · exact absurd (hn.2.symm.trans hempty) (by decide)
  · rintro ⟨hfull, hn⟩
    have hp : s.place p ≠ .away := by
      intro h
      rw [h] at hfull
      cases hfull
    refine ⟨hp, wakes_of_closed rfl hp, ?_⟩
    have hempty : (s.place p).onNotEmpty = false := by
      cases hplace : s.place p with
      | item =>
        rw [hplace] at hfull
        cases hfull
      | _ => rfl
    simp [Sys.chanClose, Sys.setClosed, Sys.notifyAll, hn, hempty]

variable [DecidableEq P] {clone : V → V} {timed : Bool}

/-- The party has left: it waits no more, and for the others nothing is taken
back. -/
theorem away_of_leave {e : Event P V} {q : P} (h : (s.leave p e).place q ≠ .away) :
    q ≠ p ∧ s.place q ≠ .away := by
  by_cases hqp : q = p
  · subst hqp
    simp [Sys.leave] at h
  · simp only [Sys.leave, Function.update_of_ne hqp] at h
    exact ⟨hqp, h⟩

theorem OthersNotified.leave (h : OthersNotified s p) {e : Event P V} :
    AllNotified (s.leave p e) := by
  intro hc q hq
  obtain ⟨hqp, hq⟩ := away_of_leave hq
  exact h hc q hqp hq

theorem OthersNotified.proceed (h : OthersNotified s p) (hp : Proceed clone s p t) :
    AllNotified t := by
  cases hp with
  | sendClosed _ _ => exact h.leave
  | sendBuffered _ hc _ hn =>
    refine OthersNotified.leave ?_
    intro hclosed
    have : s.chan.closed = true := by cases hn <;> exact hclosed
    rw [hc] at this
    cases this
  | sendUnbuffered _ hc _ hn =>
    intro hclosed
    have : s.chan.closed = true := by cases hn <;> exact hclosed
    rw [hc] at this
    cases this
  | sendTaken _ => exact h.leave
  | recvDrained _ _ => exact h.leave
  | recvItem _ _ =>
    refine OthersNotified.leave ?_
    intro hc q hqp hq
    simp only [Sys.notifyAll, Sys.pop, Bool.or_eq_true]
    exact Or.inl (h hc q hqp hq)

theorem OthersNotified.check (h : OthersNotified s p) (hp : s.place p ≠ .away)
    (hc : Check clone s p t) : AllNotified t := by
  cases hc with
  | proceed _ hp => exact h.proceed hp
  | wait hw =>
    intro hclosed
    have hw' := wakes_of_closed (s := s) hclosed hp
    rw [hw] at hw'
    cases hw'

theorem AllNotified.enter (h : AllNotified s) (hc : t.chan.closed = s.chan.closed)
    (hn : t.notified = s.notified) {w : Place V} (hp : t.place = Function.update s.place p w) :
    OthersNotified t p := by
  intro hclosed q hqp hq
  rw [hp, Function.update_of_ne hqp] at hq
  rw [hc] at hclosed
  rw [hn]
  exact h hclosed q hq

theorem AllNotified.step {a : Label P V} (h : AllNotified s) (hs : Step timed clone s a t)
    (ha : a.SparesSenders s) : AllNotified t := by
  cases hs with
  | @send _ p v _ hc =>
    have hothers : OthersNotified (s.enterSend p v) p := h.enter rfl rfl rfl
    exact hothers.check (by simp [Sys.enterSend]) hc
  | @recv _ p _ hc =>
    have hothers : OthersNotified (s.enterRecv p) p := h.enter rfl rfl rfl
    exact hothers.check (by simp [Sys.enterRecv]) hc
  | wake hp _ hc => exact (h.others _).check hp hc
  | timeoutProceeds _ _ hp => exact (h.others _).proceed hp
  | timeoutFails _ _ _ => exact (h.others _).leave
  | closeChan =>
    intro _ q hq
    simp only [Sys.closeChan, Sys.setClosed, Sys.notifyAll, Bool.or_eq_true]
    rcases onNotFull_or_onNotEmpty hq with hfull | hempty
    · exact Or.inr hfull
    · exact Or.inl (Or.inr hempty)
  | chanClose =>
    intro _ q hq
    simp only [Sys.chanClose, Sys.setClosed, Sys.notifyAll, Bool.or_eq_true]
    rcases onNotFull_or_onNotEmpty hq with hfull | hempty
    · exact Or.inl (ha q hfull)
    · exact Or.inr hempty

/-- In a run whose VM closes spare the senders, a closed channel strands nobody;
and at any point of it, one more close by a VM strands nobody exactly when it
spares the senders. -/
theorem closed_not_stranded {cap : Nat}
    (h : RunWhere (Step timed clone) (fun s a => a.SparesSenders s) (Sys.start cap) s) :
    (s.chan.closed = true → ∀ p, ¬ Stranded s p) ∧
    ((∀ p, ¬ Stranded s.chanClose p) ↔ Label.chanClose.SparesSenders s) := by
  have hall : AllNotified s := by
    refine RunWhere.keeps (I := AllNotified) ?_ h nofun
    intro s a t hs ha hi
    exact hi.step hs ha
  refine ⟨fun hc p => hall.not_stranded hc, ?_⟩
  constructor
  · intro hnone p hfull
    have hp := hnone p
    rw [chanClose_stranded_iff] at hp
    cases hn : s.notified p with
    | true => rfl
    | false => exact absurd ⟨hfull, hn⟩ hp
  · intro hspares p hp
    obtain ⟨hfull, hn⟩ := chanClose_stranded_iff.mp hp
    rw [hspares p hfull] at hn
    cases hn

/-- Party 0 waits for the receipt of its value, party 1 takes the value out, and a
VM closes the channel before party 0 runs again. -/
theorem closed_not_stranded_taken : ∃ s : Sys (Fin 2) Nat,
    s.place 0 = .rendezvous 0 0 ∧ s.chan.closed = true ∧ ∀ p, ¬ Stranded s p := by
  have hsent := run_send false (fun s a => a.SparesSenders s) trivial
  have hrecv := hsent.snoc (.recv (p := 1) rfl (.proceed rfl (.recvItem rfl rfl))) trivial
  have hclosed := hrecv.snoc .chanClose
    (Fin.forall_fin_two.mpr ⟨fun _ => rfl, fun hp => by cases hp⟩)
  exact ⟨_, rfl, rfl, (closed_not_stranded hclosed).1 rfl⟩

/-- Party 0 waits for the receipt of its value when a VM closes the channel. -/
theorem chanClose_strands : ∃ s : Sys (Fin 2) Nat,
    Run (Step false id) (Sys.start 0) s ∧ s.chan.closed = true ∧ Stranded s 0 := by
  have hsent := run_send false (fun _ _ => True) trivial
  have hclosed := hsent.snoc .chanClose trivial
  exact ⟨_, hclosed, rfl, chanClose_stranded_iff.mpr ⟨rfl, rfl⟩⟩

end Chan

end Look
