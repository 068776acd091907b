/-
What a channel promises its users, and where it breaks the promise.

The queue keeps its bound and its order whatever happens.  A send on an
unbuffered channel has its value in the queue while it waits for the receipt, and
two things may end that wait although nobody took the value: a close, after which
`send_val` returns as if the value had been received, and a timer, after which it
throws and leaves the value to be delivered later.  In a run without these two a
send returns only when its value was received and fails only when its value was
never put in.

`Inv` is what every run keeps, and `Strict` what the runs without the two keep.
The capacity of an unbuffered channel is one, so a value is put into an empty
queue, and `recv_gen` grows for the first time after the push when this value is
taken out.
-/
import Mathlib.Data.List.Nodup
import Look.Channel.Chan

namespace Look

namespace Chan

open Sys

variable {P V : Type}

/-! ## Reading the log -/

namespace Event

def accepted? : Event P V → Option (Nat × V)
  | accepted send v => some (send, v)
  | _ => none

def received? : Event P V → Option (Nat × V)
  | received _ send v => some (send, v)
  | _ => none

end Event

namespace Sys

/-- The sends whose value was put into the queue, in this order. -/
def accepted (s : Sys P V) : List (Nat × V) := s.log.filterMap Event.accepted?

/-- The values received, in this order, each with the number of its send. -/
def received (s : Sys P V) : List (Nat × V) := s.log.filterMap Event.received?

def Accepted (s : Sys P V) (send : Nat) : Prop := send ∈ s.accepted.map Prod.fst

def Received (s : Sys P V) (send : Nat) : Prop := send ∈ s.received.map Prod.fst

def Queued (s : Sys P V) (send : Nat) : Prop := send ∈ s.chan.queue.map Prod.fst

def Failed (s : Sys P V) (send : Nat) : Prop := ∃ error, .failed send error ∈ s.log

def Returned (s : Sys P V) (send : Nat) : Prop := .returned send ∈ s.log

end Sys

/-- What the users of a channel rely on. -/
structure Safe (clone : V → V) (s : Sys P V) : Prop where
  bounded : s.chan.queue.length ≤ s.chan.capacity
  /- Each value received is the copy of the value of its send, and the sends
  are numbered apart, so that no value is lost or received twice. -/
  fifo : s.received <+: s.accepted.map (Prod.map id clone)
  apart : (s.accepted.map Prod.fst).Nodup
  failed : ∀ send, s.Failed send → ¬ s.Received send
  rendezvous : s.chan.unbuffered = true → ∀ send, s.Returned send → s.Received send

/-! ## What every run keeps -/

structure Inv (clone : V → V) (s : Sys P V) : Prop where
  bounded : s.chan.queue.length ≤ s.chan.capacity
  single : s.chan.unbuffered = true → s.chan.capacity = 1
  fifo : s.received ++ s.chan.queue = s.accepted.map (Prod.map id clone)
  numbered : ∀ send, s.Accepted send → send < s.sends
  apart : (s.accepted.map Prod.fst).Nodup
  room : ∀ p send v, s.place p = .room send v → send < s.sends ∧ ¬ s.Accepted send
  rooms : ∀ p q send v v', s.place p = .room send v → s.place q = .room send v' → p = q

/-- What the runs keep in which no wait for a receipt is cut short. -/
structure Strict (s : Sys P V) : Prop where
  failed : ∀ send, s.Failed send → send < s.sends ∧ ¬ s.Accepted send ∧
    ∀ p v, s.place p ≠ .room send v
  waiting : ∀ p send gen, s.place p = .rendezvous send gen → s.chan.unbuffered = true ∧
    (s.Received send ∨ s.chan.closed = false ∧ s.chan.recvGen = gen ∧ s.Queued send)
  returned : s.chan.unbuffered = true → ∀ send, s.Returned send → s.Received send

theorem Inv.start (clone : V → V) (cap : Nat) : Inv clone (Sys.start cap : Sys P V) where
  bounded := Nat.zero_le _
  single := by
    intro hu
    have : cap = 0 := by simpa [Sys.start, LookChannel.make] using hu
    simp [Sys.start, LookChannel.make, this]
  fifo := rfl
  numbered := by simp [Accepted, accepted, Sys.start]
  apart := by simp [accepted, Sys.start]
  room := by simp [Sys.start]
  rooms := by simp [Sys.start]

theorem Strict.start (cap : Nat) : Strict (Sys.start cap : Sys P V) where
  failed := by simp [Failed, Sys.start]
  waiting := by simp [Sys.start]
  returned := by simp [Returned, Sys.start]

/-- Every value that was accepted was received or waits in the queue. -/
theorem Inv.received_or_queued {clone : V → V} {s : Sys P V} (h : Inv clone s) {send : Nat} :
    s.Accepted send ↔ s.Received send ∨ s.Queued send := by
  have hmap : (s.received ++ s.chan.queue).map Prod.fst = s.accepted.map Prod.fst := by
    rw [h.fifo, List.map_map]
    rfl
  rw [Accepted, ← hmap, List.map_append, List.mem_append]
  rfl

theorem Inv.safe {clone : V → V} {s : Sys P V} (h : Inv clone s) (hs : Strict s) :
    Safe clone s where
  bounded := h.bounded
  fifo := by
    rw [← h.fifo]
    exact List.prefix_append _ _
  apart := h.apart
  failed := by
    intro send hf hr
    exact (hs.failed send hf).2.1 (h.received_or_queued.mpr (Or.inl hr))
  rendezvous := hs.returned

/-! ## What changes in the queue keep -/

section Steps

variable {clone : V → V} {s t : Sys P V} {p : P} {send : Nat} {v : V}

/-- A step that puts nothing into the queue and nobody into a wait for room. -/
theorem Inv.moved (h : Inv clone s)
    (hfifo : t.received ++ t.chan.queue = s.received ++ s.chan.queue)
    (hlen : t.chan.queue.length ≤ s.chan.queue.length)
    (hcap : t.chan.capacity = s.chan.capacity) (hu : t.chan.unbuffered = s.chan.unbuffered)
    (ha : t.accepted = s.accepted) (hn : t.sends = s.sends)
    (hroom : ∀ q send v, t.place q = .room send v → s.place q = .room send v) :
    Inv clone t where
  bounded := by
    rw [hcap]
    exact Nat.le_trans hlen h.bounded
  single := by
    rw [hu, hcap]
    exact h.single
  fifo := by
    rw [hfifo, ha]
    exact h.fifo
  numbered := by
    intro send
    rw [Accepted, ha, hn]
    exact h.numbered send
  apart := by
    rw [ha]
    exact h.apart
  room := by
    intro q send v hp
    rw [Accepted, ha, hn]
    exact h.room q send v (hroom q send v hp)
  rooms := by
    intro q q' send v v' hp hp'
    exact h.rooms q q' send v v' (hroom q send v hp) (hroom q' send v' hp')

/-- The value of the party goes into the queue, and the party leaves the wait for
room. -/
theorem Inv.pushed (h : Inv clone s) (hp : s.place p = .room send v)
    (hlt : s.chan.queue.length < s.chan.capacity)
    (hq : t.chan.queue = s.chan.queue ++ [(send, clone v)])
    (hcap : t.chan.capacity = s.chan.capacity) (hu : t.chan.unbuffered = s.chan.unbuffered)
    (ha : t.accepted = s.accepted ++ [(send, v)]) (hr : t.received = s.received)
    (hn : t.sends = s.sends)
    (hroom : ∀ q send v, t.place q = .room send v → q ≠ p ∧ s.place q = .room send v) :
    Inv clone t := by
  obtain ⟨hlt', hnew⟩ := h.room p send v hp
  have hmap : t.accepted.map Prod.fst = s.accepted.map Prod.fst ++ [send] := by
    rw [ha, List.map_append]
    rfl
  refine ⟨?_, ?_, ?_, ?_, ?_, ?_, ?_⟩
  · rw [hq, hcap, List.length_append]
    exact hlt
  · rw [hu, hcap]
    exact h.single
  · rw [hr, hq, ha, ← List.append_assoc, h.fifo, List.map_append]
    rfl
  · intro k hk
    rw [Accepted, hmap, List.mem_append, List.mem_singleton] at hk
    rw [hn]
    rcases hk with hk | rfl
    · exact h.numbered k hk
    · exact hlt'
  · rw [hmap]
    exact List.nodup_append.mpr ⟨h.apart, List.nodup_singleton _, by
      rintro a ha b hb rfl
      rw [List.mem_singleton] at hb
      exact hnew (hb ▸ ha)⟩
  · intro q k w hk
    obtain ⟨hne, hk⟩ := hroom q k w hk
    obtain ⟨hklt, hknew⟩ := h.room q k w hk
    refine ⟨by rw [hn]; exact hklt, ?_⟩
    rw [Accepted, hmap, List.mem_append, List.mem_singleton]
    rintro (hmem | rfl)
    · exact hknew hmem
    · exact hne (h.rooms q p k w v hk hp)
  · intro q q' k w w' hk hk'
    exact h.rooms q q' k w w' (hroom q k w hk).2 (hroom q' k w' hk').2

/-- A step that puts nothing into the queue and takes nothing out of it. -/
theorem Strict.moved (h : Strict s) (hc : t.chan = s.chan) (ha : t.accepted = s.accepted)
    (hr : t.received = s.received) (hn : t.sends = s.sends)
    (hroom : ∀ q send v, t.place q = .room send v → s.place q = .room send v)
    (hwait : ∀ q send gen, t.place q = .rendezvous send gen → s.place q = .rendezvous send gen)
    (hfailed : ∀ send, t.Failed send → s.Failed send ∨
      send < s.sends ∧ ¬ s.Accepted send ∧ ∀ p v, t.place p ≠ .room send v)
    (hret : s.chan.unbuffered = true →
      ∀ send, t.Returned send → s.Returned send ∨ s.Received send) :
    Strict t where
  failed := by
    intro send hf
    rw [hn, Accepted, ha]
    rcases hfailed send hf with hf | hf
    · obtain ⟨hlt, hacc, hno⟩ := h.failed send hf
      exact ⟨hlt, hacc, fun p v hp => hno p v (hroom p send v hp)⟩
    · exact hf
  waiting := by
    intro p send gen hp
    rw [hc, Received, hr, Queued, hc]
    exact h.waiting p send gen (hwait p send gen hp)
  returned := by
    rw [hc]
    intro hu send hs
    rw [Received, hr]
    rcases hret hu send hs with hs | hs
    · exact h.returned hu send hs
    · exact hs

/-- The party puts its value in: the sends that failed are others, since none of
them waits for room. -/
theorem Strict.failed_push (h : Strict s) (hp : s.place p = .room send v)
    (ha : t.accepted = s.accepted ++ [(send, v)]) (hn : t.sends = s.sends)
    (hf : ∀ send, t.Failed send → s.Failed send)
    (hroom : ∀ q send v, t.place q = .room send v → s.place q = .room send v) :
    ∀ k, t.Failed k → k < t.sends ∧ ¬ t.Accepted k ∧ ∀ q w, t.place q ≠ .room k w := by
  intro k hk
  obtain ⟨hlt, hacc, hno⟩ := h.failed k (hf k hk)
  refine ⟨by rw [hn]; exact hlt, ?_, fun q w hq => hno q w (hroom q k w hq)⟩
  rw [Accepted, ha, List.map_append, List.mem_append]
  rintro (hmem | hmem)
  · exact hacc hmem
  · rw [List.map_singleton, List.mem_singleton] at hmem
    subst hmem
    exact hno p v hp

theorem Strict.close (h : Strict s) {n : P → Bool}
    (hpatient : ∀ p send gen, s.place p = .rendezvous send gen → ¬ s.Queued send) :
    Strict { s with chan := { s.chan with closed := true }, notified := n } where
  failed := h.failed
  waiting := by
    intro p k gen hp
    obtain ⟨hu, hk⟩ := h.waiting p k gen hp
    rcases hk with hk | ⟨-, -, hk⟩
    · exact ⟨hu, Or.inl hk⟩
    · exact absurd hk (hpatient p k gen hp)
  returned := h.returned

/-! ## What every step keeps -/

variable [DecidableEq P]

theorem Inv.enterSend (h : Inv clone s) (hp : s.place p = .away) :
    Inv clone (s.enterSend p v) where
  bounded := h.bounded
  single := h.single
  fifo := h.fifo
  numbered := fun k hk => Nat.lt_succ_of_lt (h.numbered k hk)
  apart := h.apart
  room := by
    intro q k w hk
    by_cases hqp : q = p
    · subst hqp
      simp only [Sys.enterSend, Function.update_self, Place.room.injEq] at hk
      obtain ⟨rfl, -⟩ := hk
      exact ⟨Nat.lt_succ_self _, fun hacc => Nat.lt_irrefl _ (h.numbered _ hacc)⟩
    · simp only [Sys.enterSend, Function.update_of_ne hqp] at hk
      obtain ⟨hlt, hnew⟩ := h.room q k w hk
      exact ⟨Nat.lt_succ_of_lt hlt, hnew⟩
  rooms := by
    -- The new number is that of no other party.
    have hother : ∀ q k w, q ≠ p → (s.enterSend p v).place q = .room k w → k < s.sends := by
      intro q k w hqp hk
      simp only [Sys.enterSend, Function.update_of_ne hqp] at hk
      exact (h.room q k w hk).1
    have hself : ∀ k w, (s.enterSend p v).place p = .room k w → k = s.sends := by
      intro k w hk
      simp only [Sys.enterSend, Function.update_self, Place.room.injEq] at hk
      exact hk.1.symm
    intro q q' k w w' hk hk'
    by_cases hqp : q = p
    · by_cases hqp' : q' = p
      · rw [hqp, hqp']
      · have hlt := hother q' k w' hqp' hk'
        subst hqp
        have heq := hself k w hk
        omega
    · by_cases hqp' : q' = p
      · have hlt := hother q k w hqp hk
        subst hqp'
        have heq := hself k w' hk'
        omega
      · simp only [Sys.enterSend, Function.update_of_ne hqp, Function.update_of_ne hqp'] at hk hk'
        exact h.rooms q q' k w w' hk hk'

/-- A party that is not put into a wait for room leaves the other waits for room
as they are. -/
theorem room_of_update {w : Place V} (hw : ∀ send v, w ≠ .room send v) {q : P}
    (h : Function.update s.place p w q = .room send v) : q ≠ p ∧ s.place q = .room send v := by
  by_cases hqp : q = p
  · subst hqp
    rw [Function.update_self] at h
    exact absurd h (hw send v)
  · rw [Function.update_of_ne hqp] at h
    exact ⟨hqp, h⟩

theorem NotifyOne.same {on : Place V → Bool} (h : NotifyOne s on t) :
    ∃ n, t = { s with notified := n } := by
  cases h with
  | nobody _ => exact ⟨s.notified, rfl⟩
  | somebody q _ _ => exact ⟨_, rfl⟩

theorem accepted_leave {e : Event P V} (h : e.accepted? = none) :
    (s.leave p e).accepted = s.accepted := by
  simp [Sys.leave, accepted, h]

theorem received_leave {e : Event P V} (h : e.received? = none) :
    (s.leave p e).received = s.received := by
  simp [Sys.leave, received, h]

theorem Inv.leave (h : Inv clone s) {e : Event P V} (ha : e.accepted? = none)
    (hr : e.received? = none) : Inv clone (s.leave p e) := by
  refine h.moved ?_ (Nat.le_refl _) rfl rfl (accepted_leave ha) rfl ?_
  · rw [received_leave hr]
    rfl
  · intro q send v hq
    exact (room_of_update nofun hq).2

/-- With the predicate of the wait, the queue has room for what the party puts
in. -/
theorem Inv.proceed (h : Inv clone s) (hw : (s.place p).wakes s.chan = true)
    (hp : Proceed clone s p t) : Inv clone t := by
  have hroom : ∀ {send v}, s.place p = .room send v → s.chan.closed = false →
      s.chan.queue.length < s.chan.capacity := by
    intro send v hp hc
    rw [hp] at hw
    simpa [Place.wakes, LookChannel.hasRoom, hc] using hw
  cases hp with
  | sendClosed _ _ => exact h.leave rfl rfl
  | @sendBuffered send v s' hp hc _ hn =>
    obtain ⟨n, rfl⟩ := NotifyOne.same hn
    refine h.pushed hp (hroom hp hc) rfl rfl rfl ?_ ?_ rfl ?_
    · simp [Sys.leave, Sys.push, accepted, Event.accepted?]
    · simp [Sys.leave, Sys.push, received, Event.received?]
    · intro q k w hq
      exact room_of_update (by rintro _ _ ⟨⟩) hq
  | @sendUnbuffered send v s' hp hc _ hn =>
    obtain ⟨n, rfl⟩ := NotifyOne.same hn
    refine h.pushed hp (hroom hp hc) rfl rfl rfl ?_ ?_ rfl ?_
    · simp [Sys.sleep, Sys.push, accepted, Event.accepted?]
    · simp [Sys.sleep, Sys.push, received, Event.received?]
    · intro q k w hq
      exact room_of_update (by rintro _ _ ⟨⟩) hq
  | sendTaken _ => exact h.leave rfl rfl
  | recvDrained _ _ => exact h.leave rfl rfl
  | @recvItem send v rest _ hq =>
    refine h.moved ?_ ?_ rfl rfl ?_ rfl ?_
    · simp [Sys.leave, Sys.notifyAll, Sys.pop, received, Event.received?, hq]
    · simp [Sys.leave, Sys.notifyAll, Sys.pop, hq]
    · simp [Sys.leave, Sys.notifyAll, Sys.pop, accepted, Event.accepted?]
    · intro q k w hk
      exact (room_of_update (by rintro _ _ ⟨⟩) hk).2

theorem Inv.check (h : Inv clone s) (hc : Check clone s p t) : Inv clone t := by
  cases hc with
  | proceed hw hp => exact h.proceed hw hp
  | wait _ =>
    refine h.moved rfl (Nat.le_refl _) rfl rfl rfl rfl ?_
    intro q send v hq
    simpa [Sys.sleep] using hq

theorem Inv.enterRecv (h : Inv clone s) : Inv clone (s.enterRecv p) := by
  refine h.moved rfl (Nat.le_refl _) rfl rfl rfl rfl ?_
  intro q send v hq
  exact (room_of_update nofun hq).2

theorem Inv.step {timed : Bool} {a : Label P V} (h : Inv clone s)
    (hs : Step timed clone s a t) : Inv clone t := by
  cases hs with
  | send hp hc => exact (h.enterSend hp).check hc
  | recv _ hc => exact h.enterRecv.check hc
  | wake _ _ hc => exact h.check hc
  | timeoutProceeds _ hw hp => exact h.proceed hw hp
  | @timeoutFails p _ _ _ =>
    have hev : (timeoutEvent p (s.place p)).accepted? = none ∧
        (timeoutEvent p (s.place p)).received? = none := by
      cases s.place p <;> exact ⟨rfl, rfl⟩
    exact h.leave hev.1 hev.2
  | closeChan => exact h.moved rfl (Nat.le_refl _) rfl rfl rfl rfl fun _ _ _ hq => hq
  | chanClose => exact h.moved rfl (Nat.le_refl _) rfl rfl rfl rfl fun _ _ _ hq => hq

/-! ## What the steps keep that cut no wait for a receipt short -/

/-- A step that does not end the wait of a sender for the receipt of its value
although the value was not received: no close while the value is in the queue, and
no timer before the receipt. -/
def Label.Patient (s : Sys P V) : Label P V → Prop
  | .timeout p => ∀ send gen, s.place p = .rendezvous send gen → s.chan.taken gen = true
  | .closeChan => ∀ p send gen, s.place p = .rendezvous send gen → ¬ s.Queued send
  | .chanClose => ∀ p send gen, s.place p = .rendezvous send gen → ¬ s.Queued send
  | _ => True

theorem wait_of_update {w : Place V} (hw : ∀ send gen, w ≠ .rendezvous send gen) {q : P}
    {gen : BitVec 64} (h : Function.update s.place p w q = .rendezvous send gen) :
    s.place q = .rendezvous send gen := by
  by_cases hqp : q = p
  · subst hqp
    rw [Function.update_self] at h
    exact absurd h (hw send gen)
  · rwa [Function.update_of_ne hqp] at h

theorem failed_leave {e : Event P V} (h : (s.leave p e).Failed send) :
    s.Failed send ∨ ∃ error, e = .failed send error := by
  obtain ⟨error, h⟩ := h
  rcases List.mem_append.mp h with h | h
  · exact Or.inl ⟨error, h⟩
  · exact Or.inr ⟨error, (List.mem_singleton.mp h).symm⟩

theorem returned_leave {e : Event P V} (h : (s.leave p e).Returned send) :
    s.Returned send ∨ e = .returned send := by
  rcases List.mem_append.mp h with h | h
  · exact Or.inl h
  · exact Or.inr (List.mem_singleton.mp h).symm

/-- A call ends with nothing in the queue changed: a send that fails had not put
its value in, and one that returns had its value received. -/
theorem Strict.leave (h : Strict s) (hi : Inv clone s) {e : Event P V}
    (ha : e.accepted? = none) (hr : e.received? = none)
    (hf : ∀ send error, e = .failed send error → ∃ v, s.place p = .room send v)
    (hret : s.chan.unbuffered = true → ∀ send, e = .returned send → s.Received send) :
    Strict (s.leave p e) := by
  refine h.moved rfl (accepted_leave ha) (received_leave hr) rfl ?_ ?_ ?_ ?_
  · intro q k w hq
    exact (room_of_update nofun hq).2
  · intro q k gen hq
    exact wait_of_update (by rintro _ _ ⟨⟩) hq
  · intro k hk
    rcases failed_leave hk with hk | ⟨error, hk⟩
    · exact Or.inl hk
    · obtain ⟨v, hp⟩ := hf k error hk
      obtain ⟨hlt, hnew⟩ := hi.room p k v hp
      refine Or.inr ⟨hlt, hnew, ?_⟩
      intro q w hq
      obtain ⟨hne, hq⟩ := room_of_update nofun hq
      exact hne (hi.rooms q p k w v hq hp)
  · intro hu k hk
    rcases returned_leave hk with hk | hk
    · exact Or.inl hk
    · exact Or.inr (hret hu k hk)

theorem Strict.proceed (h : Strict s) (hi : Inv clone s)
    (hw : (s.place p).wakes s.chan = true) (hp : Proceed clone s p t) : Strict t := by
  cases hp with
  | @sendClosed send v hp _ =>
    refine h.leave hi rfl rfl ?_ (by rintro _ _ ⟨⟩)
    rintro k error he
    cases he
    exact ⟨v, hp⟩
  | @sendBuffered send v s' hp hc hu hn =>
    obtain ⟨n, rfl⟩ := NotifyOne.same hn
    refine ⟨h.failed_push hp ?_ rfl ?_ ?_, ?_, ?_⟩
    · simp [Sys.leave, Sys.push, accepted, Event.accepted?]
    · rintro k ⟨error, hk⟩
      exact ⟨error, by simpa [Sys.leave, Sys.push] using hk⟩
    · intro q k w hq
      exact (room_of_update (by rintro _ _ ⟨⟩) hq).2
    · intro q k gen hq
      have hq := wait_of_update (s := s) (by rintro _ _ ⟨⟩) hq
      rw [(h.waiting q k gen hq).1] at hu
      cases hu
    · intro hu'
      exact absurd (hu'.symm.trans hu) (by decide)
  | @sendUnbuffered send v s' hp hc hu hn =>
    obtain ⟨n, rfl⟩ := NotifyOne.same hn
    refine ⟨h.failed_push hp ?_ rfl ?_ ?_, ?_, ?_⟩
    · simp [Sys.sleep, Sys.push, accepted, Event.accepted?]
    · rintro k ⟨error, hk⟩
      exact ⟨error, by simpa [Sys.sleep, Sys.push] using hk⟩
    · intro q k w hq
      exact (room_of_update (by rintro _ _ ⟨⟩) hq).2
    · intro q k gen hq
      refine ⟨hu, ?_⟩
      by_cases hqp : q = p
      · subst hqp
        simp only [Sys.sleep, Function.update_self, Place.rendezvous.injEq] at hq
        obtain ⟨rfl, rfl⟩ := hq
        exact Or.inr ⟨hc, rfl, by simp [Queued, Sys.sleep, Sys.push]⟩
      · simp only [Sys.sleep, Sys.push, Function.update_of_ne hqp] at hq
        rcases (h.waiting q k gen hq).2 with hr | ⟨-, hgen, hmem⟩
        · left
          simpa [Received, Sys.sleep, Sys.push, received, Event.received?] using hr
        · refine Or.inr ⟨hc, hgen, ?_⟩
          rw [Queued] at hmem ⊢
          simp only [Sys.sleep, Sys.push, List.map_append, List.mem_append]
          exact Or.inl hmem
    · intro _ k hk
      have hk : s.Returned k := by simpa [Returned, Sys.sleep, Sys.push] using hk
      simpa [Received, Sys.sleep, Sys.push, received, Event.received?] using h.returned hu k hk
  | @sendTaken send gen hp =>
    refine h.leave hi rfl rfl (by rintro _ _ ⟨⟩) ?_
    rintro - k he
    cases he
    -- An open channel has not counted a receipt since the push.
    rcases (h.waiting p send gen hp).2 with hr | ⟨hc, hgen, -⟩
    · exact hr
    · rw [hp] at hw
      simp [Place.wakes, LookChannel.taken, hc, hgen] at hw
  | recvDrained _ _ =>
    exact h.leave hi rfl rfl (by rintro _ _ ⟨⟩) (by rintro _ _ ⟨⟩)
  | @recvItem send v rest _ hq =>
    have hrec : ∀ {k}, s.Received k ∨ k = send → ((((s.pop rest).notifyAll
        Place.onNotFull).leave p (.received p send v)).Received k) := by
      intro k hk
      simp only [Received, Sys.leave, Sys.notifyAll, Sys.pop, received, Event.received?,
        List.filterMap_append, List.map_append, List.mem_append]
      rcases hk with hk | rfl
      · exact Or.inl hk
      · exact Or.inr (by simp [Event.received?])
    refine ⟨?_, ?_, ?_⟩
    · rintro k ⟨error, hk⟩
      have hk : s.Failed k := ⟨error, by simpa [Sys.leave, Sys.notifyAll, Sys.pop] using hk⟩
      obtain ⟨hlt, hacc, hno⟩ := h.failed k hk
      refine ⟨hlt, ?_, fun q w hq => hno q w (room_of_update (by rintro _ _ ⟨⟩) hq).2⟩
      simpa [Accepted, Sys.leave, Sys.notifyAll, Sys.pop, accepted, Event.accepted?] using hacc
    · intro q k gen hk
      obtain ⟨hu, hk⟩ := h.waiting q k gen (wait_of_update (by rintro _ _ ⟨⟩) hk)
      refine ⟨hu, Or.inl (hrec ?_)⟩
      rcases hk with hk | ⟨-, -, hk⟩
      · exact Or.inl hk
      · -- The queue holds one value, so it is the one that was taken out.
        right
        have hb := hi.bounded
        rw [hi.single hu, hq, List.length_cons] at hb
        have hnil : rest = [] := List.length_eq_zero_iff.mp (by omega)
        rw [Queued, hq, hnil] at hk
        simpa using hk
    · intro hu k hk
      have hk : s.Returned k := by simpa [Returned, Sys.leave, Sys.notifyAll, Sys.pop] using hk
      exact hrec (Or.inl (h.returned hu k hk))

theorem Strict.check (h : Strict s) (hi : Inv clone s) (hc : Check clone s p t) : Strict t := by
  cases hc with
  | proceed hw hp => exact h.proceed hi hw hp
  | wait _ =>
    refine h.moved rfl rfl rfl rfl ?_ ?_ (fun _ => Or.inl) (fun _ _ => Or.inl)
    · intro q k w hq
      simpa [Sys.sleep] using hq
    · intro q k gen hq
      simpa [Sys.sleep] using hq

theorem Strict.enterSend (h : Strict s) : Strict (s.enterSend p v) where
  failed := by
    intro k hk
    obtain ⟨hlt, hacc, hno⟩ := h.failed k hk
    refine ⟨Nat.lt_succ_of_lt hlt, hacc, ?_⟩
    intro q w hq
    by_cases hqp : q = p
    · subst hqp
      simp only [Sys.enterSend, Function.update_self, Place.room.injEq] at hq
      omega
    · simp only [Sys.enterSend, Function.update_of_ne hqp] at hq
      exact hno q w hq
  waiting := by
    intro q k gen hq
    exact h.waiting q k gen (wait_of_update (by rintro _ _ ⟨⟩) hq)
  returned := h.returned

theorem Strict.step {timed : Bool} {a : Label P V} (h : Strict s) (hi : Inv clone s)
    (hs : Step timed clone s a t) (ha : a.Patient s) : Strict t := by
  cases hs with
  | send hp hc => exact h.enterSend.check (hi.enterSend hp) hc
  | @recv _ p _ hc =>
    refine Strict.check (s := s.enterRecv p) ?_ hi.enterRecv hc
    refine h.moved rfl rfl rfl rfl ?_ ?_ (fun _ => Or.inl) (fun _ _ => Or.inl)
    · intro q send v hq
      exact (room_of_update nofun hq).2
    · intro q send gen hq
      exact wait_of_update (by rintro _ _ ⟨⟩) hq
  | wake _ _ hc => exact h.check hi hc
  | timeoutProceeds _ hw hp => exact h.proceed hi hw hp
  | @timeoutFails p _ hp hw =>
    cases hplace : s.place p with
    | away => exact absurd hplace hp
    | room send v =>
      refine h.leave hi rfl rfl ?_ nofun
      rintro k error he
      cases he
      exact ⟨v, hplace⟩
    | rendezvous send gen =>
      rw [hplace] at hw
      exact absurd (ha send gen hplace) (by simpa [Place.wakes] using hw)
    | item => exact h.leave hi rfl rfl nofun nofun
  | closeChan => exact h.close ha
  | chanClose => exact h.close ha

/-! ## Whole runs -/

/-- Whatever the parties do, the queue keeps its bound and the values come out in
the order in which they went in. -/
theorem run_inv {timed : Bool} {cap : Nat} (h : Run (Step timed clone) (Sys.start cap) s) :
    Inv clone s :=
  RunWhere.keeps (fun _ _ _ hs _ hi => Inv.step hi hs) h (Inv.start clone cap)

/-- A timeout and a close cost a sender its answer, but never the order of the
values: what was received and what is still queued are the accepted values, each
once. -/
theorem fifo_of_run {timed : Bool} {cap : Nat} (h : Run (Step timed clone) (Sys.start cap) s) :
    s.chan.queue.length ≤ s.chan.capacity ∧
      s.received ++ s.chan.queue = s.accepted.map (Prod.map id clone) ∧
      (s.received.map Prod.fst).Nodup := by
  have hi := run_inv h
  have hprefix : s.received.map Prod.fst <+: s.accepted.map Prod.fst := by
    refine ⟨s.chan.queue.map Prod.fst, ?_⟩
    rw [← List.map_append, hi.fifo, List.map_map]
    rfl
  exact ⟨hi.bounded, hi.fifo, hi.apart.sublist hprefix.sublist⟩

/-- In a run that cuts no wait for a receipt short, the channel keeps its
promises. -/
theorem run_safe {timed : Bool} {cap : Nat}
    (h : RunWhere (Step timed clone) (fun s a => a.Patient s) (Sys.start cap) s) :
    Safe clone s := by
  have hboth : Inv clone s ∧ Strict s := by
    refine RunWhere.keeps (I := fun s => Inv clone s ∧ Strict s) ?_ h
      ⟨Inv.start clone cap, Strict.start cap⟩
    rintro s a t hs ha ⟨hi, h⟩
    exact ⟨hi.step hs, h.step hi hs ha⟩
  exact hboth.1.safe hboth.2

end Steps

/-! ## Two parties on an unbuffered channel -/

/-- Party 1 takes the value out, and then the send of party 0 returns. -/
theorem run_safe_rendezvous : ∃ s : Sys (Fin 2) Nat,
    s.received = [(0, 7)] ∧ s.Returned 0 ∧ Safe id s := by
  have hsent := run_send false (fun s a => a.Patient s) trivial
  have hrecv := hsent.snoc (.recv (p := 1) rfl (.proceed rfl (.recvItem rfl rfl))) trivial
  have hwoken := hrecv.snoc
    (.wake (p := 0) nofun rfl (.proceed rfl (.sendTaken rfl))) trivial
  exact ⟨_, rfl, by simp [Returned, Sys.leave], run_safe hwoken⟩

/-- The timer of the send of party 0 fires, and party 1 takes the value out. -/
theorem fifo_of_run_timeout : ∃ s : Sys (Fin 2) Nat,
    s.received = [(0, 7)] ∧ s.chan.queue.length ≤ s.chan.capacity ∧
      s.received ++ s.chan.queue = s.accepted.map (Prod.map id id) ∧
      (s.received.map Prod.fst).Nodup := by
  have htimeout := (run_send true (fun _ _ => True) trivial).snoc
    (.timeoutFails (p := 0) rfl (by rintro ⟨⟩) rfl) trivial
  have hrecv := htimeout.snoc (.recv (p := 1) rfl (.proceed rfl (.recvItem rfl rfl))) trivial
  exact ⟨_, rfl, fifo_of_run hrecv⟩

/-- The send of party 0 returns after a close although nobody received its value;
and it throws when its timer fires, after which party 1 receives the value. -/
theorem run_not_safe :
    (∃ s : Sys (Fin 2) Nat, Run (Step false id) (Sys.start 0) s ∧
      s.Returned 0 ∧ s.received = [] ∧ ¬ Safe id s) ∧
    (∃ s : Sys (Fin 2) Nat, Run (Step true id) (Sys.start 0) s ∧
      s.Failed 0 ∧ s.received = [(0, 7)] ∧ ¬ Safe id s) := by
  constructor
  · have hclosed := (run_send false (fun _ _ => True) trivial).snoc .closeChan trivial
    have hwoken := hclosed.snoc
      (.wake (p := 0) nofun rfl (.proceed rfl (.sendTaken rfl))) trivial
    refine ⟨_, hwoken, by simp [Returned, Sys.leave], rfl, ?_⟩
    intro hsafe
    have hr := hsafe.rendezvous rfl 0 (by simp [Returned, Sys.leave])
    cases hr
  · have htimeout := (run_send true (fun _ _ => True) trivial).snoc
      (.timeoutFails (p := 0) rfl nofun rfl) trivial
    have hrecv := htimeout.snoc (.recv (p := 1) rfl (.proceed rfl (.recvItem rfl rfl))) trivial
    refine ⟨_, hrecv, ⟨_, List.mem_append_left _ (List.mem_append_right _
      (List.mem_singleton_self _))⟩, rfl, ?_⟩
    intro hsafe
    exact hsafe.failed 0 ⟨_, List.mem_append_left _ (List.mem_append_right _
      (List.mem_singleton_self _))⟩ (List.mem_singleton_self _)

end Chan

end Look
