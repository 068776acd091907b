/-
Connection pools: `ConnPool::acquire`, `ConnPool::release`, `get_conn` and
`release_thread_connections`.

A request is a fiber or a thread.  It borrows a connection with its first operation on a
pool and keeps it until it ends.  Every step below is one critical section: the check of
the fast path, the registration in `g_fiber_waiters`, the check after a resume, the return
of one connection, and the notification, which come one after the other and with steps of
other requests in between.

The server is not modelled: after a statement it says whether a transaction is open on the
connection and whether it has accepted the statement.
-/
import Mathlib.Data.List.Nodup
import Mathlib.Logic.Function.Basic
import Look.Lib.Reach

namespace Look

namespace Db

/-- `DbConnection`: whether the server has a transaction open on it, and `tx_depth`. -/
structure Conn where
  inTransaction : Bool
  txDepth : Int
deriving DecidableEq

/-- A connection as it was opened. -/
def Conn.idle : Conn := ⟨false, 0⟩

/-- `ConnPool`.  `available` has the last one first.  A pool that was closed is not in
`g_pools` any more. -/
structure Pool where
  all : List Nat
  available : List Nat
  registered : Bool
deriving DecidableEq

/-- Where a request is. -/
inductive Phase where
  | running
  /-- The pool was exhausted when it looked. -/
  | exhausted (p : Nat)
  /-- It is in `g_fiber_waiters` and does not run. -/
  | suspended (p : Nat)
  /-- It is on the scheduler's queue again and has not run yet. -/
  | resumed (p : Nat)
  /-- It has returned a connection and has not notified yet. -/
  | notifying (p : Nat)
  | releasing
deriving DecidableEq

structure System where
  pools : Nat → Pool
  conns : Nat → Conn
  /-- The number of connections that were opened. -/
  opened : Nat
  /-- `active_conns` of a request: a pool and the connection that is borrowed from it. -/
  active : Nat → List (Nat × Nat)
  /-- The pools of the calls of `db::transaction` that a request is in, innermost first. -/
  levels : Nat → List Nat
  /-- `g_fiber_waiters`: a fiber and the pool that it waits for. -/
  waiters : List (Nat × Nat)
  phase : Nat → Phase

def System.start : System where
  pools _ := ⟨[], [], false⟩
  conns _ := .idle
  opened := 0
  active _ := []
  levels _ := []
  waiters := []
  phase _ := .running

inductive Action where
  /-- `db::connect`, with a new key and `n` connections. -/
  | connect (p n : Nat)
  /-- `db::close`. -/
  | close (p : Nat)
  /-- The fast path of `acquire`. -/
  | acquire (r p : Nat)
  /-- A fiber registers and is suspended. -/
  | register (r : Nat)
  /-- A fiber that was resumed looks again. -/
  | retry (r : Nat)
  /-- A thread comes out of `cv.wait`. -/
  | wake (r : Nat)
  /-- `db::begin`, `db::commit`, `db::rollback`, `db::query` or `db::exec`. -/
  | statement (r p : Nat) (inTransaction : Bool)
  /-- `db::transaction` opens its level. -/
  | txOpen (r p : Nat) (accepted inTransaction : Bool)
  /-- The body has returned. -/
  | txReturn (r : Nat) (accepted inTransaction : Bool)
  /-- The body has thrown. -/
  | txThrow (r : Nat) (inTransaction : Bool)
  /-- `release_thread_connections` returns one connection. -/
  | giveBack (r : Nat)
  /-- `notify_fiber_waiters`. -/
  | notify (r : Nat)
  /-- The connections were all returned. -/
  | finish (r : Nat)
deriving DecidableEq

namespace System

variable (s : System) (r p : Nat)

def setPhase (phase : Phase) : System :=
  { s with phase := Function.update s.phase r phase }

def setConn (c : Nat) (conn : Conn) : System :=
  { s with conns := Function.update s.conns c conn }

/-- The connection that the request has borrowed from the pool. -/
def borrowed : Option Nat := (s.active r).lookup p

/-- The request gets the connection, and `rest` is left. -/
def take (c : Nat) (rest : List Nat) : System :=
  { s with
    pools := Function.update s.pools p { s.pools p with available := rest }
    active := Function.update s.active r ((p, c) :: s.active r)
    phase := Function.update s.phase r .running }

/-- The check of `acquire`: the last connection is taken if there is one. -/
def tryTake : System :=
  match (s.pools p).available with
  | [] => s.setPhase r (.exhausted p)
  | c :: rest => s.take r p c rest

end System

/-- One step; nothing when it cannot happen. -/
def step (fiber : Nat → Bool) (s : System) : Action → Option System
  | .connect p n =>
    if (s.pools p).all = [] ∧ 0 < n then
      let cs := List.range' s.opened n
      some { s with
        pools := Function.update s.pools p ⟨cs, cs.reverse, true⟩
        opened := s.opened + n }
    else none
  | .close p =>
    some { s with pools := Function.update s.pools p { s.pools p with registered := false } }
  | .acquire r p =>
    if s.phase r = .running ∧ s.borrowed r p = none ∧ (s.pools p).registered = true then
      some (s.tryTake r p)
    else none
  | .register r =>
    match s.phase r with
    | .exhausted p =>
      if fiber r then
        some ({ s with waiters := s.waiters ++ [(r, p)] }.setPhase r (.suspended p))
      else none
    | _ => none
  | .retry r =>
    match s.phase r with
    | .resumed p => some (s.tryTake r p)
    | _ => none
  | .wake r =>
    match s.phase r with
    | .exhausted p =>
      if fiber r then none
      else
        match (s.pools p).available with
        | [] => none
        | c :: rest => some (s.take r p c rest)
    | _ => none
  | .statement r p inTransaction =>
    if s.phase r = .running then
      (s.borrowed r p).map fun c => s.setConn c { s.conns c with inTransaction := inTransaction }
    else none
  | .txOpen r p accepted inTransaction =>
    if s.phase r = .running then
      (s.borrowed r p).map fun c =>
        if accepted then
          { s.setConn c ⟨inTransaction, (s.conns c).txDepth + 1⟩ with
            levels := Function.update s.levels r (p :: s.levels r) }
        else s.setConn c { s.conns c with inTransaction := inTransaction }
    else none
  | .txReturn r accepted inTransaction =>
    if s.phase r = .running then
      match s.levels r with
      | [] => none
      | p :: rest => (s.borrowed r p).map fun c =>
        -- a rejected statement gets to the handler, which takes one more
        let txDepth := if accepted then (s.conns c).txDepth - 1 else (s.conns c).txDepth - 2
        { s.setConn c ⟨inTransaction, txDepth⟩ with levels := Function.update s.levels r rest }
    else none
  | .txThrow r inTransaction =>
    if s.phase r = .running then
      match s.levels r with
      | [] => none
      | p :: rest => (s.borrowed r p).map fun c =>
        { s.setConn c ⟨inTransaction, (s.conns c).txDepth - 1⟩ with
          levels := Function.update s.levels r rest }
    else none
  | .giveBack r =>
    if (s.phase r = .running ∨ s.phase r = .releasing) ∧ s.levels r = [] then
      match s.active r with
      | [] => none
      | (p, c) :: rest =>
        let pool := s.pools p
        if pool.registered then
          some { s with
            pools := Function.update s.pools p { pool with available := c :: pool.available }
            active := Function.update s.active r rest
            phase := Function.update s.phase r (.notifying p) }
        else
          some { s with
            active := Function.update s.active r rest
            phase := Function.update s.phase r .releasing }
    else none
  | .notify r =>
    match s.phase r with
    | .notifying _ =>
      match s.waiters with
      | [] => some (s.setPhase r .releasing)
      -- the first waiter is resumed, whichever pool it waits for
      | (f, p) :: rest =>
        some (({ s with waiters := rest }.setPhase r .releasing).setPhase f (.resumed p))
    | _ => none
  | .finish r =>
    if s.phase r = .releasing ∧ s.active r = [] then some (s.setPhase r .running) else none

def Step (fiber : Nat → Bool) (s : System) (a : Action) (s' : System) : Prop :=
  step fiber s a = some s'

/-! ## What a step can do -/

/-- The pool for which a request is in `acquire`. -/
def Phase.wants : Phase → Option Nat
  | .exhausted p | .suspended p | .resumed p => some p
  | _ => none

/-- The request looks for a connection of the pool: it has none and calls `acquire`, or it
is in `acquire` already. -/
def System.Looks (s : System) (r p : Nat) : Prop :=
  (s.phase r = .running ∧ s.borrowed r p = none ∧ (s.pools p).registered = true) ∨
    s.phase r = .exhausted p ∨ s.phase r = .resumed p

/-- What a step can do, with what it has checked. -/
inductive Move (s : System) : Action → System → Prop
  | connect {p n : Nat} (hnew : (s.pools p).all = []) (hn : 0 < n) :
      Move s (.connect p n) { s with
        pools := Function.update s.pools p
          ⟨List.range' s.opened n, (List.range' s.opened n).reverse, true⟩
        opened := s.opened + n }
  | close {p : Nat} : Move s (.close p)
      { s with pools := Function.update s.pools p { s.pools p with registered := false } }
  | take {a : Action} {r p c : Nat} {rest : List Nat} (hlooks : s.Looks r p)
      (hfree : (s.pools p).available = c :: rest) : Move s a (s.take r p c rest)
  | exhaust {a : Action} {r p : Nat} (hlooks : s.Looks r p) (hfree : (s.pools p).available = []) :
      Move s a (s.setPhase r (.exhausted p))
  | register {r p : Nat} (hphase : s.phase r = .exhausted p) :
      Move s (.register r)
        ({ s with waiters := s.waiters ++ [(r, p)] }.setPhase r (.suspended p))
  | statement {a : Action} {r p c : Nat} {inTransaction : Bool} (hphase : s.phase r = .running)
      (hc : s.borrowed r p = some c) :
      Move s a (s.setConn c { s.conns c with inTransaction := inTransaction })
  | txOpen {r p c : Nat} {accepted inTransaction : Bool} (hphase : s.phase r = .running)
      (hc : s.borrowed r p = some c) :
      Move s (.txOpen r p accepted inTransaction)
        { s.setConn c ⟨inTransaction, (s.conns c).txDepth + 1⟩ with
          levels := Function.update s.levels r (p :: s.levels r) }
  | txEnd {a : Action} {r p c : Nat} {rest : List Nat} {inTransaction : Bool} {txDepth : Int}
      (hphase : s.phase r = .running) (hlevels : s.levels r = p :: rest)
      (hc : s.borrowed r p = some c)
      (hdepth : txDepth = (s.conns c).txDepth - 1 ∨
        (∃ inTransaction, a = .txReturn r false inTransaction) ∧
          txDepth = (s.conns c).txDepth - 2) :
      Move s a { s.setConn c ⟨inTransaction, txDepth⟩ with
        levels := Function.update s.levels r rest }
  | giveBack {r p c : Nat} {rest : List (Nat × Nat)}
      (hphase : s.phase r = .running ∨ s.phase r = .releasing) (hlevels : s.levels r = [])
      (hactive : s.active r = (p, c) :: rest) (hregistered : (s.pools p).registered = true) :
      Move s (.giveBack r) { s with
        pools := Function.update s.pools p
          { s.pools p with available := c :: (s.pools p).available }
        active := Function.update s.active r rest
        phase := Function.update s.phase r (.notifying p) }
  | drop {r p c : Nat} {rest : List (Nat × Nat)}
      (hphase : s.phase r = .running ∨ s.phase r = .releasing) (hlevels : s.levels r = [])
      (hactive : s.active r = (p, c) :: rest) (hclosed : (s.pools p).registered = false) :
      Move s (.giveBack r) { s with
        active := Function.update s.active r rest
        phase := Function.update s.phase r .releasing }
  | settle {a : Action} {r : Nat} (hphase : s.phase r = .releasing) :
      Move s a (s.setPhase r .running)
  | notifyNone {r p : Nat} (hphase : s.phase r = .notifying p) (hwaiters : s.waiters = []) :
      Move s (.notify r) (s.setPhase r .releasing)
  | notify {r p f q : Nat} {rest : List (Nat × Nat)} (hphase : s.phase r = .notifying p)
      (hwaiters : s.waiters = (f, q) :: rest) :
      Move s (.notify r)
        (({ s with waiters := rest }.setPhase r .releasing).setPhase f (.resumed q))

section Moves

variable {fiber : Nat → Bool} {s s' : System} {a : Action}

theorem tryTake_move {r p : Nat} (hlooks : s.Looks r p) (a : Action) :
    Move s a (s.tryTake r p) := by
  rw [System.tryTake]
  split
  · rename_i hfree
    exact .exhaust hlooks hfree
  · rename_i c rest hfree
    exact .take hlooks hfree

theorem step_move (h : step fiber s a = some s') : Move s a s' := by
  cases a with
  | connect p n =>
    rw [step] at h
    split at h
    · rename_i hnew
      cases h
      exact .connect hnew.1 hnew.2
    · cases h
  | close p =>
    cases h
    exact .close
  | acquire r p =>
    rw [step] at h
    split at h
    · rename_i hlooks
      cases h
      exact tryTake_move (.inl hlooks) _
    · cases h
  | register r =>
    rw [step] at h
    split at h
    · rename_i p hphase
      split at h
      · cases h
        exact .register hphase
      · cases h
    · cases h
  | retry r =>
    rw [step] at h
    split at h
    · rename_i p hphase
      cases h
      exact tryTake_move (.inr (.inr hphase)) _
    · cases h
  | wake r =>
    rw [step] at h
    split at h
    · rename_i p hphase
      split at h
      · cases h
      · split at h
        · cases h
        · rename_i c rest hfree
          cases h
          exact .take (.inr (.inl hphase)) hfree
    · cases h
  | statement r p inTransaction =>
    rw [step] at h
    split at h
    · rename_i hphase
      obtain ⟨c, hc, rfl⟩ := Option.map_eq_some_iff.mp h
      exact .statement hphase hc
    · cases h
  | txOpen r p accepted inTransaction =>
    rw [step] at h
    split at h
    · rename_i hphase
      obtain ⟨c, hc, rfl⟩ := Option.map_eq_some_iff.mp h
      split
      · exact .txOpen hphase hc
      · exact .statement hphase hc
    · cases h
  | txReturn r accepted inTransaction =>
    rw [step] at h
    split at h
    · rename_i hphase
      split at h
      · cases h
      · rename_i p rest hlevels
        obtain ⟨c, hc, rfl⟩ := Option.map_eq_some_iff.mp h
        refine .txEnd hphase hlevels hc ?_
        cases accepted
        · exact .inr ⟨⟨inTransaction, rfl⟩, rfl⟩
        · exact .inl rfl
    · cases h
  | txThrow r inTransaction =>
    rw [step] at h
    split at h
    · rename_i hphase
      split at h
      · cases h
      · rename_i p rest hlevels
        obtain ⟨c, hc, rfl⟩ := Option.map_eq_some_iff.mp h
        exact .txEnd hphase hlevels hc (.inl rfl)
    · cases h
  | giveBack r =>
    rw [step] at h
    split at h
    · rename_i hphase
      split at h
      · cases h
      · rename_i p c rest hactive
        dsimp only at h
        split at h
        · rename_i hregistered
          cases h
          exact .giveBack hphase.1 hphase.2 hactive hregistered
        · rename_i hclosed
          cases h
          exact .drop hphase.1 hphase.2 hactive (Bool.eq_false_iff.mpr hclosed)
    · cases h
  | notify r =>
    rw [step] at h
    split at h
    · rename_i p hphase
      split at h
      · rename_i hwaiters
        cases h
        exact .notifyNone hphase hwaiters
      · rename_i f q rest hwaiters
        cases h
        exact .notify hphase hwaiters
    · cases h
  | finish r =>
    rw [step] at h
    split at h
    · rename_i hphase
      cases h
      exact .settle hphase.1
    · cases h

end Moves

/-! ## Who waits -/

/-- A request that is in `acquire` has no connection of the pool, a fiber in
`g_fiber_waiters` is there once and is suspended, and a pool that somebody may look at
was opened. -/
structure Waits (s : System) : Prop where
  opened : ∀ p, (s.pools p).registered = true → (s.pools p).all ≠ []
  known : ∀ r p, (s.phase r).wants = some p → (s.pools p).all ≠ []
  absent : ∀ r p, (s.phase r).wants = some p → ∀ c, (p, c) ∉ s.active r
  queued : ∀ f p, (f, p) ∈ s.waiters → s.phase f = .suspended p
  once : (s.waiters.map Prod.fst).Nodup

section Waits

variable {fiber : Nat → Bool} {s s' : System} {a : Action} {r p : Nat}

theorem start_waits : Waits System.start where
  opened := nofun
  known := nofun
  absent := nofun
  queued := nofun
  once := List.nodup_nil

theorem absent_of_borrowed (h : s.borrowed r p = none) (c : Nat) : (p, c) ∉ s.active r := by
  intro hc
  have hne := List.lookup_eq_none_iff.mp h (p, c) hc
  exact absurd hne (by simp)

theorem mem_of_borrowed {c : Nat} (h : s.borrowed r p = some c) : (p, c) ∈ s.active r := by
  obtain ⟨l, l', hl, -⟩ := List.lookup_eq_some_iff.mp h
  rw [hl]
  exact List.mem_append_right _ List.mem_cons_self

theorem Waits.absent_of_looks (h : Waits s) (hlooks : s.Looks r p) (c : Nat) :
    (p, c) ∉ s.active r := by
  rcases hlooks with ⟨-, hnone, -⟩ | hphase | hphase
  · exact absent_of_borrowed hnone c
  · exact h.absent r p (congrArg Phase.wants hphase) c
  · exact h.absent r p (congrArg Phase.wants hphase) c

theorem Waits.known_of_looks (h : Waits s) (hlooks : s.Looks r p) : (s.pools p).all ≠ [] := by
  rcases hlooks with ⟨-, -, hregistered⟩ | hphase | hphase
  · exact h.opened p hregistered
  · exact h.known r p (congrArg Phase.wants hphase)
  · exact h.known r p (congrArg Phase.wants hphase)

/-- The request is not in `g_fiber_waiters`. -/
theorem Waits.notMem (h : Waits s) (hphase : ∀ p, s.phase r ≠ .suspended p) (p : Nat) :
    (r, p) ∉ s.waiters :=
  fun hmem => hphase p (h.queued r p hmem)

/-- One request goes on, and pools change. -/
theorem Waits.advance {phase : Phase} (h : Waits s) (hphase : ∀ p, s.phase r ≠ .suspended p)
    (hphase' : s'.phase r = phase)
    (hopened : ∀ p, (s'.pools p).registered = true → (s'.pools p).all ≠ [])
    (hall : ∀ p, (s.pools p).all ≠ [] → (s'.pools p).all ≠ [])
    (hothers : ∀ r', r' ≠ r → s'.phase r' = s.phase r' ∧ s'.active r' = s.active r')
    (hnew : ∀ p, phase.wants = some p → (s'.pools p).all ≠ [] ∧ ∀ c, (p, c) ∉ s'.active r)
    (hwaiters : s'.waiters = s.waiters) : Waits s' where
  opened := hopened
  known := by
    intro r' p hp
    by_cases hr : r' = r
    · subst hr
      rw [hphase'] at hp
      exact (hnew p hp).1
    · rw [(hothers r' hr).1] at hp
      exact hall p (h.known r' p hp)
  absent := by
    intro r' p hp
    by_cases hr : r' = r
    · subst hr
      rw [hphase'] at hp
      exact (hnew p hp).2
    · rw [(hothers r' hr).1] at hp
      rw [(hothers r' hr).2]
      exact h.absent r' p hp
  queued := by
    intro f p hf
    rw [hwaiters] at hf
    have hne : f ≠ r := by
      rintro rfl
      exact h.notMem hphase p hf
    rw [(hothers f hne).1]
    exact h.queued f p hf
  once := by
    rw [hwaiters]
    exact h.once

/-- A request that is not in `acquire` any more. -/
theorem Waits.setPhase {phase : Phase} (h : Waits s) (hphase : ∀ p, s.phase r ≠ .suspended p)
    (hwants : phase.wants = none) : Waits (s.setPhase r phase) := by
  refine h.advance hphase (Function.update_self ..) h.opened (fun _ hq => hq) ?_ ?_ rfl
  · exact fun r' hr => ⟨Function.update_of_ne hr _ _, rfl⟩
  · exact fun q hq => absurd (hwants.symm.trans hq) nofun

/-- Pools change, and no request does. -/
theorem Waits.setPools {pools : Nat → Pool} {opened : Nat} (h : Waits s)
    (hopened : ∀ p, (pools p).registered = true → (pools p).all ≠ [])
    (hall : ∀ p, (s.pools p).all ≠ [] → (pools p).all ≠ []) :
    Waits { s with pools := pools, opened := opened } where
  opened := hopened
  known r p hp := hall p (h.known r p hp)
  absent := h.absent
  queued := h.queued
  once := h.once

/-- Connections and the calls of `db::transaction` change. -/
theorem Waits.setConns {conns : Nat → Conn} {levels : Nat → List Nat} (h : Waits s) :
    Waits { s with conns := conns, levels := levels } :=
  ⟨h.opened, h.known, h.absent, h.queued, h.once⟩

/-- A request that wants no other connection than before. -/
theorem wants_update (phase : Phase) (hphase : ∀ q, phase.wants = some q →
    (s.phase r).wants = some q) : ∀ r' q,
      (Function.update s.phase r phase r').wants = some q → (s.phase r').wants = some q :=
  (Function.forall_update_iff s.phase fun r' phase =>
    ∀ q, phase.wants = some q → (s.phase r').wants = some q).mpr ⟨hphase, fun _ _ _ hq => hq⟩

theorem Waits.register (h : Waits s) (hphase : s.phase r = .exhausted p) :
    Waits ({ s with waiters := s.waiters ++ [(r, p)] }.setPhase r (.suspended p)) := by
  have hwants : (s.phase r).wants = some p := congrArg Phase.wants hphase
  have hnew : ∀ q, (r, q) ∉ s.waiters := h.notMem fun q hq => by rw [hphase] at hq; cases hq
  have hsame := wants_update (.suspended p) fun _ hq => hwants.trans hq
  refine ⟨h.opened, ?_, ?_, ?_, ?_⟩
  · exact fun r' q hq => h.known r' q (hsame r' q hq)
  · exact fun r' q hq => h.absent r' q (hsame r' q hq)
  · intro f q hf
    dsimp only [System.setPhase] at hf ⊢
    rcases List.mem_append.mp hf with hold | hf
    · have hne : f ≠ r := by
        rintro rfl
        exact hnew q hold
      rw [Function.update_of_ne hne]
      exact h.queued f q hold
    · cases List.mem_singleton.mp hf
      exact Function.update_self _ _ _
  · dsimp only [System.setPhase]
    rw [List.map_append, List.nodup_append]
    refine ⟨h.once, List.nodup_singleton _, ?_⟩
    intro f hf f' hf' heq
    obtain ⟨⟨f0, q⟩, hq, rfl⟩ := List.mem_map.mp hf
    rw [List.map_singleton, List.mem_singleton] at hf'
    have hf0 : f0 = r := heq.trans hf'
    rw [hf0] at hq
    exact hnew q hq

/-- The first waiter is resumed. -/
theorem Waits.resume {f : Nat} {rest : List (Nat × Nat)} (h : Waits s)
    (hwaiters : s.waiters = (f, p) :: rest) :
    Waits ({ s with waiters := rest }.setPhase f (.resumed p)) := by
  have hf : s.phase f = .suspended p := h.queued f p (by rw [hwaiters]; exact List.mem_cons_self)
  have honce := h.once
  rw [hwaiters, List.map_cons, List.nodup_cons] at honce
  have hsame := wants_update (.resumed p) fun _ hq => (congrArg Phase.wants hf).trans hq
  refine ⟨h.opened, ?_, ?_, ?_, honce.2⟩
  · exact fun r q hq => h.known r q (hsame r q hq)
  · exact fun r q hq => h.absent r q (hsame r q hq)
  · intro g q hg
    dsimp only [System.setPhase] at hg ⊢
    have hne : g ≠ f := by
      rintro rfl
      exact honce.1 (List.mem_map.mpr ⟨(g, q), hg, rfl⟩)
    rw [Function.update_of_ne hne]
    exact h.queued g q (by rw [hwaiters]; exact List.mem_cons_of_mem _ hg)

theorem update_others {α : Type} {f : Nat → α} {x : α} : ∀ r', r' ≠ r →
    Function.update f r x r' = f r' :=
  fun _ hr => Function.update_of_ne hr _ _

/-- A pool whose connections stay. -/
theorem Waits.update_pool (h : Waits s) (pool : Pool) (hall : pool.all = (s.pools p).all)
    (hregistered : pool.registered = true → (s.pools p).registered = true) :
    (∀ q, (Function.update s.pools p pool q).registered = true →
      (Function.update s.pools p pool q).all ≠ []) ∧
    ∀ q, (s.pools q).all ≠ [] → (Function.update s.pools p pool q).all ≠ [] := by
  have hupdate := Function.forall_update_iff s.pools (a := p) (b := pool)
  constructor
  · refine (hupdate fun _ pool => pool.registered = true → pool.all ≠ []).mpr
      ⟨?_, fun q _ => h.opened q⟩
    exact fun hpool => hall ▸ h.opened p (hregistered hpool)
  · refine (hupdate fun q pool => (s.pools q).all ≠ [] → pool.all ≠ []).mpr ⟨?_, fun _ _ hq => hq⟩
    exact fun hq => hall ▸ hq

theorem System.Looks.not_suspended (hlooks : s.Looks r p) (q : Nat) : s.phase r ≠ .suspended q := by
  rcases hlooks with ⟨hphase, -, -⟩ | hphase | hphase <;> rw [hphase] <;> nofun

theorem Waits.step (h : Waits s) (hmove : Move s a s') : Waits s' := by
  cases hmove with
  | @connect p n hnew hn =>
    have hne : List.range' s.opened n ≠ [] := by
      rw [ne_eq, List.range'_eq_nil_iff]
      omega
    have hupdate := Function.forall_update_iff s.pools (a := p)
      (b := ⟨List.range' s.opened n, (List.range' s.opened n).reverse, true⟩)
    refine h.setPools ?_ ?_
    · exact (hupdate fun _ pool => pool.registered = true → pool.all ≠ []).mpr
        ⟨fun _ => hne, fun q _ => h.opened q⟩
    · exact (hupdate fun q pool => (s.pools q).all ≠ [] → pool.all ≠ []).mpr
        ⟨fun _ => hne, fun _ _ hq => hq⟩
  | @close p =>
    obtain ⟨hopened, hall⟩ := h.update_pool (p := p) ⟨(s.pools p).all, _, false⟩ rfl nofun
    exact h.setPools hopened hall
  | @take _ r p c rest hlooks hfree =>
    obtain ⟨hopened, hall⟩ := h.update_pool (p := p) { s.pools p with available := rest } rfl id
    exact h.advance (r := r) hlooks.not_suspended (Function.update_self ..) hopened hall
      (fun r' hr => ⟨update_others r' hr, update_others r' hr⟩) nofun rfl
  | @exhaust _ r p hlooks hfree =>
    refine h.advance (r := r) hlooks.not_suspended (Function.update_self ..) h.opened
      (fun _ hq => hq) (fun r' hr => ⟨update_others r' hr, rfl⟩) ?_ rfl
    intro q hq
    cases hq
    exact ⟨h.known_of_looks hlooks, h.absent_of_looks hlooks⟩
  | register hphase => exact h.register hphase
  | statement => exact h.setConns
  | txOpen => exact h.setConns
  | txEnd => exact h.setConns
  | @giveBack r p c rest hphase _ _ _ =>
    obtain ⟨hopened, hall⟩ := h.update_pool (p := p)
      { s.pools p with available := c :: (s.pools p).available } rfl id
    refine h.advance (r := r) ?_ (Function.update_self ..) hopened hall
      (fun r' hr => ⟨update_others r' hr, update_others r' hr⟩) nofun rfl
    intro q
    rcases hphase with hphase | hphase <;> rw [hphase] <;> nofun
  | @drop r p c rest hphase _ _ _ =>
    refine h.advance (r := r) ?_ (Function.update_self ..) h.opened (fun _ hq => hq)
      (fun r' hr => ⟨update_others r' hr, update_others r' hr⟩) nofun rfl
    intro q
    rcases hphase with hphase | hphase <;> rw [hphase] <;> nofun
  | @settle _ r hphase => exact h.setPhase (by rw [hphase]; nofun) rfl
  | @notifyNone r p hphase _ => exact h.setPhase (by rw [hphase]; nofun) rfl
  | @notify r p f q rest hphase hwaiters =>
    have hreleasing : Waits (s.setPhase r .releasing) := h.setPhase (by rw [hphase]; nofun) rfl
    exact hreleasing.resume hwaiters

theorem run_waits {ok : System → Action → Prop} (hrun : RunWhere (Step fiber) ok System.start s) :
    Waits s :=
  hrun.keeps (fun _ _ _ hstep _ h => h.step (step_move hstep)) start_waits

end Waits

end Db

end Look
