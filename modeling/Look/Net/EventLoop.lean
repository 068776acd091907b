/-
Writing through the event loop.

`EpollEventLoop` keeps one buffer, one position and one callback for the write of a
descriptor.  `async_write` puts a write there and watches for EPOLLOUT, and the loop
takes it from there, in as many calls of `write` as the socket needs.  A second write
in the meantime takes the place of the first one, `async_read` stops watching for
EPOLLOUT, and a write that fails is reported as one that succeeded.  As long as none
of this happens, every write is written in full and in order, and reported once.

`accepted`, `sent` and `called` are not part of the source: they record the writes that
were accepted, the bytes that the socket has taken, and the callbacks that were called.
-/
import Look.Lib.Reach
import Look.Net.HttpParse

namespace Look

namespace EventLoop

open Http (Bytes)

/-! ## The data of a descriptor -/

/-- A call of `async_write`; the callback may be missing. -/
structure Write where
  data : Bytes
  cb : Option Nat
deriving DecidableEq

/-- What a call of `write` returns: a number of bytes, EAGAIN, or another error. -/
inductive Outcome where
  | wrote (n : Nat)
  | again
  | error
deriving DecidableEq

/-- Where `run` is with the descriptor: it waits, `epoll_wait` has returned with
EPOLLOUT, or the buffer is written and the callback is still to be called. -/
inductive Loop where
  | waiting
  | fetched
  | finishing (cb : Option Nat)
deriving DecidableEq

/-- `FdEntry`, as far as writes are concerned. -/
structure Fd where
  writeBuf : Bytes
  writePos : Nat
  writeCb : Option Nat
  /-- EPOLLOUT is watched for. -/
  out : Bool
  closed : Bool
  loop : Loop
  accepted : List Write
  sent : Bytes
  called : List (Nat × Bool)
deriving DecidableEq

/-- A descriptor that has just been added. -/
def Fd.start : Fd := ⟨[], 0, none, false, false, .waiting, [], [], []⟩

/-! ## Steps -/

/-- The loop that writes the buffer, with what the calls of `write` return.  When there
are no more of them the socket takes no more. -/
def writeLoop (buf : Bytes) (pos : Nat) (sent : Bytes) : List Outcome → Nat × Bytes
  | [] => (pos, sent)
  | o :: outcomes =>
    if pos < buf.length then
      match o with
      | .wrote n =>
        if n = 0 then (buf.length, sent)
        else
          let n := min n (buf.length - pos)
          writeLoop buf (pos + n) (sent ++ (buf.drop pos).take n) outcomes
      | .again => (pos, sent)
      | .error => (buf.length, sent)
    else (pos, sent)

inductive Action where
  | asyncWrite (w : Write)
  | asyncRead
  | closeFd
  | fetch
  | writable (outcomes : List Outcome)
  | finish
deriving DecidableEq

/-- `async_write`. -/
def asyncWrite (s : Fd) (w : Write) : Fd :=
  if s.closed then { s with called := s.called ++ w.cb.toList.map (·, false) }
  else { s with
    writeBuf := w.data, writePos := 0, writeCb := w.cb, out := true,
    accepted := s.accepted ++ [w] }

/-- The part of `run` that handles EPOLLOUT, up to the end of its lock. -/
def writable (s : Fd) (outcomes : List Outcome) : Fd :=
  if s.closed then { s with loop := .waiting }
  else
    let (pos, sent) := writeLoop s.writeBuf s.writePos s.sent outcomes
    if s.writeBuf.length ≤ pos then
      { s with
        writeBuf := [], writePos := 0, writeCb := none, sent := sent,
        loop := .finishing s.writeCb }
    else { s with writePos := pos, sent := sent, loop := .waiting }

/-- One step: a call by a server, or the next part of `run`.  Nothing when it cannot
happen. -/
def step (s : Fd) : Action → Option Fd
  | .asyncWrite w => some (asyncWrite s w)
  | .asyncRead => if s.closed then some s else some { s with out := false }
  | .closeFd => some { s with closed := true, out := false }
  | .fetch => if s.out ∧ s.loop = .waiting then some { s with loop := .fetched } else none
  | .writable outcomes => if s.loop = .fetched then some (writable s outcomes) else none
  | .finish =>
    match s.loop with
    | .finishing cb => some { s with
        out := false, loop := .waiting, called := s.called ++ cb.toList.map (·, true) }
    | _ => none

def Step (s : Fd) (a : Action) (s' : Fd) : Prop := step s a = some s'

def steps (s : Fd) (actions : List Action) : Option Fd := actions.foldlM step s

/-! ## The contract -/

/-- The bytes of some writes. -/
def bytes (ws : List Write) : Bytes := (ws.map Write.data).flatten

/-- The callbacks of some writes. -/
def callbacks (ws : List Write) : List Nat := ws.filterMap Write.cb

/-- The callbacks that were told of a success. -/
def confirmed (called : List (Nat × Bool)) : List Nat :=
  (called.filter fun c => c.2).map Prod.fst

/-- The steps that `run` takes. -/
def Action.OfLoop : Action → Prop
  | .fetch => True
  | .writable _ => True
  | .finish => True
  | _ => False

/-- The loop alone can write all writes and call each callback once. -/
def Served (s : Fd) : Prop :=
  ∃ s', RunWhere Step (fun _ a => a.OfLoop) s s' ∧ s'.accepted = s.accepted ∧
    s'.sent = bytes s.accepted ∧ s'.called = (callbacks s.accepted).map (·, true)

/-- What servers rely on.  The socket has taken the writes in order, one after the
other; the callbacks told of a success are those of the first writes, each once, and
all bytes of these are written; and as long as the descriptor is open, no write is
lost. -/
structure Contract (s : Fd) : Prop where
  ordered : s.sent <+: bytes s.accepted
  called : ∃ n, confirmed s.called = callbacks (s.accepted.take n) ∧
    bytes (s.accepted.take n) <+: s.sent
  served : s.closed = false → Served s

/-- The calls of `write` do not fail. -/
def Outcome.fails : Outcome → Bool
  | .wrote n => n == 0
  | .again => false
  | .error => true

/-- No write or read is asked for while a write is under way, and no call of `write`
fails. -/
def careful (s : Fd) : Action → Bool
  | .asyncWrite _ => s.closed || !s.out
  | .asyncRead => s.closed || !s.out
  | .writable outcomes => outcomes.all fun o => !o.fails
  | _ => true

def Careful (s : Fd) (a : Action) : Prop := careful s a = true

/-! ## The invariant -/

/-- Where the last write is: no write is under way, a part of it is written, or all of
it and its callback is next. -/
inductive Progress (s : Fd) : Prop
  | idle (hsent : s.sent = bytes s.accepted) (hcalled : confirmed s.called = callbacks s.accepted)
      (hloop : s.loop = .waiting) (hout : s.out = false)
  | writing (done : List Write) (w : Write) (haccepted : s.accepted = done ++ [w])
      (hbuf : s.writeBuf = w.data) (hcb : s.writeCb = w.cb) (hpos : s.writePos ≤ w.data.length)
      (hsent : s.sent = bytes done ++ w.data.take s.writePos)
      (hcalled : confirmed s.called = callbacks done)
      (hloop : s.loop = .waiting ∨ s.loop = .fetched) (hout : s.closed = false → s.out = true)
  | finishing (done : List Write) (w : Write) (haccepted : s.accepted = done ++ [w])
      (hsent : s.sent = bytes s.accepted) (hcalled : confirmed s.called = callbacks done)
      (hloop : s.loop = .finishing w.cb) (hout : s.closed = false → s.out = true)

/-- The invariant: the last write makes progress, and only a descriptor that is closed
refuses writes. -/
structure Inv (s : Fd) : Prop where
  progress : Progress s
  open_called : s.closed = false → s.called = (confirmed s.called).map (·, true)
  closed_out : s.closed = true → s.out = false

section Lists

variable (ws : List Write) (w : Write)

theorem bytes_snoc : bytes (ws ++ [w]) = bytes ws ++ w.data := by
  simp [bytes]

theorem callbacks_snoc : callbacks (ws ++ [w]) = callbacks ws ++ w.cb.toList := by
  cases h : w.cb <;> simp [callbacks, h]

theorem confirmed_append (a b : List (Nat × Bool)) :
    confirmed (a ++ b) = confirmed a ++ confirmed b := by
  simp [confirmed]

theorem confirmed_true (cbs : List Nat) : confirmed (cbs.map (·, true)) = cbs := by
  induction cbs with
  | nil => rfl
  | cons c cbs ih => exact congrArg (c :: ·) ih

theorem confirmed_false (cbs : List Nat) : confirmed (cbs.map (·, false)) = [] := by
  induction cbs with
  | nil => rfl
  | cons c cbs ih => exact ih

end Lists

/-- Calls of `write` that do not fail move the position over the bytes that they send. -/
theorem writeLoop_spec {buf base sent : Bytes} {pos : Nat} {outcomes : List Outcome}
    (hsent : sent = base ++ buf.take pos) (hpos : pos ≤ buf.length)
    (h : ∀ o ∈ outcomes, o.fails = false) :
    (writeLoop buf pos sent outcomes).1 ≤ buf.length ∧
      (writeLoop buf pos sent outcomes).2 =
        base ++ buf.take (writeLoop buf pos sent outcomes).1 := by
  induction outcomes generalizing pos sent with
  | nil => exact ⟨hpos, hsent⟩
  | cons o outcomes ih =>
    have hrest : ∀ o ∈ outcomes, o.fails = false := fun o ho => h o (List.mem_cons_of_mem _ ho)
    by_cases hlt : pos < buf.length
    · cases o with
      | again =>
        rw [writeLoop, if_pos hlt]
        exact ⟨hpos, hsent⟩
      | error => exact absurd (h _ List.mem_cons_self) nofun
      | wrote n =>
        have hn : n ≠ 0 := by simpa [Outcome.fails] using h _ List.mem_cons_self
        have hle : min n (buf.length - pos) ≤ buf.length - pos := Nat.min_le_right _ _
        rw [writeLoop, if_pos hlt, if_neg hn]
        refine ih ?_ ?_ hrest
        · rw [hsent, List.append_assoc, List.take_add]
        · omega
    · have hstop : writeLoop buf pos sent (o :: outcomes) = (pos, sent) := by
        cases o <;> exact if_neg hlt
      rw [hstop]
      exact ⟨hpos, hsent⟩

/-- A socket that takes everything. -/
theorem exists_writeLoop_done (buf : Bytes) (pos : Nat) (sent : Bytes) :
    ∃ outcomes : List Outcome, (∀ o ∈ outcomes, o.fails = false) ∧
      buf.length ≤ (writeLoop buf pos sent outcomes).1 := by
  by_cases hlt : pos < buf.length
  · have hlen : buf.length ≠ 0 := Nat.ne_of_gt (Nat.zero_lt_of_lt hlt)
    refine ⟨[.wrote buf.length], ?_, ?_⟩
    · intro o ho
      obtain rfl := List.mem_singleton.mp ho
      simpa [Outcome.fails] using hlen
    · rw [writeLoop, if_pos hlt, if_neg hlen, writeLoop]
      dsimp only
      omega
  · exact ⟨[], nofun, Nat.le_of_not_lt hlt⟩

section Steps

variable {s s' : Fd}

theorem Inv.start : Inv Fd.start where
  progress := .idle rfl rfl rfl rfl
  open_called _ := rfl
  closed_out := nofun

theorem Inv.asyncWrite (h : Inv s) (w : Write) (hok : s.closed = true ∨ s.out = false) :
    Inv (asyncWrite s w) := by
  rw [EventLoop.asyncWrite]
  split
  · rename_i hclosed
    have hcalled : confirmed (s.called ++ w.cb.toList.map (·, false)) = confirmed s.called := by
      rw [confirmed_append, confirmed_false, List.append_nil]
    refine ⟨?_, fun hopen => absurd (hclosed.symm.trans hopen) nofun, h.closed_out⟩
    cases h.progress with
    | idle h1 h2 h3 h4 => exact .idle h1 (hcalled.trans h2) h3 h4
    | writing d w h1 h2 h3 h4 h5 h6 h7 h8 =>
      exact .writing d w h1 h2 h3 h4 h5 (hcalled.trans h6) h7 h8
    | finishing d w h1 h2 h3 h4 h5 => exact .finishing d w h1 h2 (hcalled.trans h3) h4 h5
  · rename_i hopen
    have hopen : s.closed = false := by simpa using hopen
    have hout : s.out = false := hok.resolve_left (by rw [hopen]; exact Bool.false_ne_true)
    cases h.progress with
    | idle h1 h2 h3 h4 =>
      refine ⟨.writing s.accepted w rfl rfl rfl (Nat.zero_le _) ?_ h2 (Or.inl h3) fun _ => rfl,
        h.open_called, fun hclosed => absurd (hopen.symm.trans hclosed) nofun⟩
      exact h1.trans (List.append_nil _).symm
    | writing _ _ _ _ _ _ _ _ _ h8 => exact absurd (hout.symm.trans (h8 hopen)) nofun
    | finishing _ _ _ _ _ _ h5 => exact absurd (hout.symm.trans (h5 hopen)) nofun

theorem Inv.closeFd (h : Inv s) : Inv { s with closed := true, out := false } := by
  refine ⟨?_, nofun, fun _ => rfl⟩
  cases h.progress with
  | idle h1 h2 h3 _ => exact .idle h1 h2 h3 rfl
  | writing d w h1 h2 h3 h4 h5 h6 h7 _ => exact .writing d w h1 h2 h3 h4 h5 h6 h7 nofun
  | finishing d w h1 h2 h3 h4 _ => exact .finishing d w h1 h2 h3 h4 nofun

theorem Inv.fetch (h : Inv s) (hout : s.out = true) (hloop : s.loop = .waiting) :
    Inv { s with loop := .fetched } := by
  refine ⟨?_, h.open_called, h.closed_out⟩
  cases h.progress with
  | idle _ _ _ h4 => exact absurd (h4.symm.trans hout) nofun
  | writing d w h1 h2 h3 h4 h5 h6 _ h8 => exact .writing d w h1 h2 h3 h4 h5 h6 (Or.inr rfl) h8
  | finishing _ _ _ _ _ h4 _ => exact absurd (h4.symm.trans hloop) nofun

theorem Inv.writable (h : Inv s) (hloop : s.loop = .fetched) (outcomes : List Outcome)
    (hok : ∀ o ∈ outcomes, o.fails = false) : Inv (writable s outcomes) := by
  cases h.progress with
  | idle _ _ h3 _ => exact absurd (h3.symm.trans hloop) nofun
  | finishing _ _ _ _ _ h4 _ => exact absurd (h4.symm.trans hloop) nofun
  | writing d w h1 h2 h3 h4 h5 h6 h7 h8 =>
    rw [EventLoop.writable]
    split
    · refine ⟨.writing d w h1 h2 h3 h4 h5 h6 (Or.inl rfl) h8, h.open_called, h.closed_out⟩
    · obtain ⟨hpos, hsent⟩ := writeLoop_spec (h2 ▸ h5) (h2 ▸ h4) hok
      dsimp only
      split
      · rename_i hdone
        refine ⟨.finishing d w h1 ?_ h6 (congrArg Loop.finishing h3) h8, h.open_called,
          h.closed_out⟩
        rw [List.take_of_length_le hdone] at hsent
        rw [h1, bytes_snoc, ← h2]
        exact hsent
      · refine ⟨.writing d w h1 h2 h3 ?_ ?_ h6 (Or.inl rfl) h8, h.open_called, h.closed_out⟩
        · rw [← h2]
          exact hpos
        · rw [← h2]
          exact hsent

theorem Inv.finish (h : Inv s) {cb : Option Nat} (hloop : s.loop = .finishing cb) :
    Inv { s with out := false, loop := .waiting, called := s.called ++ cb.toList.map (·, true) } := by
  have hconfirmed : confirmed (s.called ++ cb.toList.map (·, true)) =
      confirmed s.called ++ cb.toList := by
    rw [confirmed_append, confirmed_true]
  cases h.progress with
  | idle _ _ h3 _ => exact absurd (h3.symm.trans hloop) nofun
  | writing _ _ _ _ _ _ _ _ h7 _ =>
    rcases h7 with h7 | h7
    · exact absurd (h7.symm.trans hloop) nofun
    · exact absurd (h7.symm.trans hloop) nofun
  | finishing d w h1 h2 h3 h4 h5 =>
    obtain rfl : w.cb = cb := Loop.finishing.inj (h4.symm.trans hloop)
    refine ⟨.idle h2 ?_ rfl rfl, ?_, fun _ => rfl⟩
    · rw [hconfirmed, h3, h1, callbacks_snoc]
    · intro hopen
      rw [hconfirmed, List.map_append, ← h.open_called hopen]

/-- Every careful step keeps the invariant. -/
theorem Inv.step {a : Action} (h : Inv s) (hs : Step s a s') (hok : Careful s a) : Inv s' := by
  have hstep : EventLoop.step s a = some s' := hs
  rw [Careful] at hok
  cases a with
  | asyncWrite w =>
    cases hstep
    exact h.asyncWrite w (by simpa [careful] using hok)
  | asyncRead =>
    rw [EventLoop.step] at hstep
    split at hstep
    · cases hstep
      exact h
    · rename_i hopen
      cases hstep
      have hout : s.out = false := by simpa [careful, hopen] using hok
      rw [← hout]
      exact h
  | closeFd =>
    cases hstep
    exact h.closeFd
  | fetch =>
    rw [EventLoop.step] at hstep
    split at hstep
    · rename_i hguard
      cases hstep
      exact h.fetch hguard.1 hguard.2
    · cases hstep
  | writable outcomes =>
    rw [EventLoop.step] at hstep
    split at hstep
    · rename_i hloop
      cases hstep
      exact h.writable hloop outcomes (by simpa [careful] using hok)
    · cases hstep
  | finish =>
    rw [EventLoop.step] at hstep
    split at hstep
    · rename_i cb hloop
      cases hstep
      exact h.finish hloop
    · cases hstep

/-! ## The contract holds -/

theorem Served.head {a : Action} (hs : Step s a s') (ha : a.OfLoop)
    (haccepted : s'.accepted = s.accepted) (h : Served s') : Served s := by
  obtain ⟨t, hrun, h1, h2, h3⟩ := h
  rw [haccepted] at h1 h2 h3
  exact ⟨t, Relation.ReflTransGen.head ⟨a, hs, ha⟩ hrun, h1, h2, h3⟩

theorem Inv.served_finishing (h : Inv s) (hopen : s.closed = false) {cb : Option Nat}
    (hloop : s.loop = .finishing cb) : Served s := by
  have hstep : Step s .finish { s with
      out := false, loop := .waiting, called := s.called ++ cb.toList.map (·, true) } := by
    rw [Step, EventLoop.step, hloop]
  have hinv := h.finish hloop
  refine Served.head hstep trivial rfl ⟨_, .refl, rfl, ?_⟩
  cases hinv.progress with
  | idle h1 h2 _ _ => exact ⟨h1, (hinv.open_called hopen).trans (by rw [h2])⟩
  | writing _ _ _ _ _ _ _ _ _ h8 => exact absurd (h8 hopen) nofun
  | finishing _ _ _ _ _ h4 _ => cases h4

theorem Inv.served_fetched (h : Inv s) (hopen : s.closed = false) (hloop : s.loop = .fetched) :
    Served s := by
  obtain ⟨outcomes, hok, hall⟩ := exists_writeLoop_done s.writeBuf s.writePos s.sent
  have hinv := h.writable hloop outcomes hok
  have hdone : EventLoop.writable s outcomes = { s with
      writeBuf := [], writePos := 0, writeCb := none,
      sent := (writeLoop s.writeBuf s.writePos s.sent outcomes).2,
      loop := .finishing s.writeCb } := by
    rw [EventLoop.writable, hopen, if_neg Bool.false_ne_true]
    dsimp only
    rw [if_pos hall]
  have hstep : Step s (.writable outcomes) (EventLoop.writable s outcomes) := by
    rw [Step, EventLoop.step, if_pos hloop]
  rw [hdone] at hstep hinv
  exact Served.head hstep trivial rfl (hinv.served_finishing hopen rfl)

theorem Inv.served (h : Inv s) (hopen : s.closed = false) : Served s := by
  cases h.progress with
  | idle h1 h2 _ _ => exact ⟨s, .refl, rfl, h1, (h.open_called hopen).trans (by rw [h2])⟩
  | finishing _ _ _ _ _ h4 _ => exact h.served_finishing hopen h4
  | writing _ _ _ _ _ _ _ _ h7 h8 =>
    rcases h7 with h7 | h7
    · have hstep : Step s .fetch { s with loop := .fetched } := by
        rw [Step, EventLoop.step, if_pos ⟨h8 hopen, h7⟩]
      exact Served.head hstep trivial rfl ((h.fetch (h8 hopen) h7).served_fetched hopen rfl)
    · exact h.served_fetched hopen h7

theorem Inv.contract (h : Inv s) : Contract s where
  served := h.served
  ordered := by
    cases h.progress with
    | idle h1 _ _ _ => exact h1 ▸ List.prefix_refl _
    | finishing _ _ _ h2 _ _ _ => exact h2 ▸ List.prefix_refl _
    | writing d w h1 _ _ _ h5 _ _ _ =>
      rw [h1, h5, bytes_snoc]
      exact (List.prefix_append_right_inj _).mpr (List.take_prefix _ _)
  called := by
    cases h.progress with
    | idle h1 h2 _ _ =>
      refine ⟨s.accepted.length, ?_⟩
      rw [List.take_length, h1]
      exact ⟨h2, List.prefix_refl _⟩
    | finishing d w h1 h2 h3 _ _ =>
      refine ⟨d.length, ?_⟩
      rw [h2, h1, List.take_left, bytes_snoc]
      exact ⟨h3, List.prefix_append _ _⟩
    | writing d w h1 _ _ _ h5 h6 _ _ =>
      refine ⟨d.length, ?_⟩
      rw [h1, List.take_left, h5]
      exact ⟨h6, List.prefix_append _ _⟩

end Steps

/-- In a run in which no write or read is asked for while a write is under way and no
call of `write` fails, the contract holds throughout. -/
theorem contract_of_careful {s : Fd} (h : RunWhere Step Careful Fd.start s) : Contract s :=
  (RunWhere.keeps (I := Inv) (fun _ a _ hs hok hi => hi.step (a := a) hs hok) h
    Inv.start).contract

/-- Two writes, one after the other, the first in two pieces. -/
theorem contract_of_careful_two : ∃ s, Contract s ∧ s.sent = [1, 2, 3] ∧
    s.called = [(7, true), (8, true)] := by
  have hrun : stepsWhere step careful Fd.start [.asyncRead, .asyncWrite ⟨[1, 2], some 7⟩, .fetch,
      .writable [.wrote 1, .again], .fetch, .writable [.wrote 1], .finish,
      .asyncWrite ⟨[3], some 8⟩, .fetch, .writable [.wrote 1], .finish] =
      some ⟨[], 0, none, false, false, .waiting, [⟨[1, 2], some 7⟩, ⟨[3], some 8⟩], [1, 2, 3],
        [(7, true), (8, true)]⟩ := by
    decide
  exact ⟨_, contract_of_careful (runWhere_of_stepsWhere hrun), rfl, rfl⟩

/-- A second write before the first is done takes its place, and a write that fails is
reported as written. -/
theorem contract_broken :
    (∃ s, Run Step Fd.start s ∧ s.accepted = [⟨[1], some 7⟩, ⟨[2], some 8⟩] ∧ s.sent = [2] ∧
      s.called = [(8, true)] ∧ ¬ Contract s) ∧
    ∃ s, Run Step Fd.start s ∧ s.accepted = [⟨[1], some 7⟩] ∧ s.sent = [] ∧
      s.called = [(7, true)] ∧ ¬ Contract s := by
  constructor
  · have hrun : steps Fd.start [.asyncWrite ⟨[1], some 7⟩, .asyncWrite ⟨[2], some 8⟩, .fetch,
        .writable [.wrote 1], .finish] =
        some ⟨[], 0, none, false, false, .waiting, [⟨[1], some 7⟩, ⟨[2], some 8⟩], [2],
          [(8, true)]⟩ := by
      decide
    refine ⟨_, run_of_foldlM hrun, rfl, rfl, rfl, ?_⟩
    intro h
    exact absurd h.ordered (by decide)
  · have hrun : steps Fd.start [.asyncWrite ⟨[1], some 7⟩, .fetch, .writable [.error], .finish] =
        some ⟨[], 0, none, false, false, .waiting, [⟨[1], some 7⟩], [], [(7, true)]⟩ := by
      decide
    refine ⟨_, run_of_foldlM hrun, rfl, rfl, rfl, ?_⟩
    intro h
    obtain ⟨n, hcalled, hsent⟩ := h.called
    cases n with
    | zero => cases hcalled
    | succ n =>
      rw [List.take_succ_cons, List.take_nil] at hsent
      exact absurd hsent (by decide)

end EventLoop

end Look
