/-
The task limiter of `parallel()`: `task_acquire`, `task_release` and `task_wait`.

A thread adds 1 to `s_count` and takes it back when the slot was not there, so the counter can
be higher than the number of slots that are held.  Who waits for a slot sleeps on the same
condition variable as who waits for the end of all tasks.  A step is one access to the counter,
with the mutex when it is taken for it, or one wait or notification.
-/
import Look.Lib.AtLeast
import Look.Lib.Reach
import Mathlib.Algebra.Order.Group.Int
import Mathlib.Logic.Function.Basic
import Mathlib.Tactic.ByContra

namespace Look

namespace Limiter

inductive AcquireMode where
  | THROW
  | WAIT
  | TRY
deriving DecidableEq

/-- Where a thread is.  `notified` says that a notification has woken it for this attempt, and
`expired` that its deadline has passed. -/
inductive Phase where
  | idle
  /-- `THROW` or `TRY` was refused, and its 1 is still in the counter. -/
  | refusing
  /-- `WAIT` was refused, and its 1 is still in the counter. -/
  | backing
  /-- It will look at the predicate for the first time. -/
  | locking
  /-- The predicate does not hold, and it has the mutex. -/
  | checked
  | blocked
  /-- It will look at the predicate again. -/
  | woken (notified expired : Bool)
  /-- The predicate was true. -/
  | trying (notified : Bool)
  /-- The deadline has passed: one last attempt, with the mutex. -/
  | last (notified : Bool)
  | lastRefused
  /-- It has given its slot back and is about to notify one. -/
  | releasing (remaining : Int)
  /-- It is about to notify all. -/
  | draining
  /-- The same stages of `task_wait`. -/
  | joining
  | joinChecked
  | joinBlocked
  | joinWoken (expired : Bool)
deriving DecidableEq

namespace Phase

/-- A notification is on its way, or the attempt that it has caused is not over. -/
def pending : Phase → Bool
  | .woken notified _ | .trying notified | .last notified => notified
  | .releasing _ | .draining => true
  | _ => false

/-- It is at a `fetch_add`. -/
def attempts : Phase → Bool
  | .idle | .trying _ | .last _ => true
  | _ => false

/-- It is between a wait and a sleep, and has the mutex. -/
def locks : Phase → Bool
  | .checked | .last _ | .lastRefused | .joinChecked => true
  | _ => false

/-- It waits for a slot: it sleeps, or has seen that it has to. -/
def waits : Phase → Bool
  | .checked | .blocked => true
  | _ => false

/-- It is in `task_wait`, or in nothing. -/
def joins : Phase → Bool
  | .idle | .joining | .joinChecked | .joinBlocked | .joinWoken _ => true
  | _ => false

/-- Its 1 in the counter is for no slot. -/
def raised : Phase → Bool
  | .refusing | .backing | .lastRefused => true
  | _ => false

/-- It is in the queue of `s_cv`. -/
def sleeps : Phase → Bool
  | .blocked | .joinBlocked => true
  | _ => false

/-- What a notification makes of a sleeper. -/
def notify : Phase → Phase
  | .blocked => .woken true false
  | .joinBlocked => .joinWoken false
  | phase => phase

end Phase

structure State (T : Type) where
  /-- `s_count`. -/
  count : Int
  /-- Who has `s_mtx`. -/
  owner : Option T
  /-- The queue of `s_cv`. -/
  sleepers : List T
  phase : T → Phase
  /-- The slots that were granted and not released. -/
  held : Nat
  /-- Who was refused and has not taken its 1 back. -/
  refused : List T
  /-- How many slots were held each time that `THROW` or `TRY` was refused. -/
  refusals : List Nat

inductive Action (T : Type) where
  | acquire (t : T) (mode : AcquireMode)
  | takeBack (t : T)
  /-- The predicate of the wait for a slot. -/
  | check (t : T)
  /-- It sleeps and gives the mutex up. -/
  | block (t : T)
  | retry (t : T)
  /-- The deadline passes. -/
  | expire (t : T)
  /-- A sleeper wakes up without a notification. -/
  | wakeSpuriously (t : T)
  | lastAttempt (t : T)
  | release (t : T)
  /-- `notify_one` wakes this sleeper. -/
  | notifyOne (t : T) (sleeper : Option T)
  | notifyAll (t : T)
  | taskWait (t : T)
  /-- The predicate of `task_wait`. -/
  | checkDone (t : T)
deriving DecidableEq

/-- A step that reads the counter to see if there is a slot, or gives one back. -/
def Action.counts {T : Type} : Action T → Bool
  | .acquire _ _ | .check _ | .retry _ | .lastAttempt _ | .release _ => true
  | _ => false

variable {T : Type}

section Step

variable [DecidableEq T]

namespace State

def start : State T where
  count := 0
  owner := none
  sleepers := []
  phase _ := .idle
  held := 0
  refused := []
  refusals := []

variable (s : State T) (t : T)

def setPhase (phase : Phase) : State T :=
  { s with phase := Function.update s.phase t phase }

/-- `fetch_add` of an attempt that gets a slot. -/
def grant : State T :=
  { s.setPhase t .idle with count := s.count + 1, held := s.held + 1 }

/-- `fetch_add` of an attempt that gets none. -/
def refuse (phase : Phase) : State T :=
  { s.setPhase t phase with count := s.count + 1, refused := t :: s.refused }

/-- `fetch_sub` after a refusal. -/
def takeBack (phase : Phase) : State T :=
  { s.setPhase t phase with count := s.count - 1, refused := s.refused.erase t }

/-- It is not asleep any more. -/
def wake (phase : Phase) : State T :=
  { s.setPhase t phase with sleepers := s.sleepers.erase t }

end State

/-- One step; nothing when it cannot happen. -/
def step (limit : Nat) (s : State T) : Action T → Option (State T)
  | .acquire t mode =>
    if s.phase t = .idle then
      if s.count < limit then some (s.grant t)
      else if mode = .WAIT then some (s.refuse t .backing)
      else some { s.refuse t .refusing with refusals := s.held :: s.refusals }
    else none
  | .takeBack t =>
    match s.phase t with
    | .refusing => some (s.takeBack t .idle)
    | .backing => some (s.takeBack t .locking)
    | .lastRefused => some { s.takeBack t .idle with owner := none }
    | _ => none
  | .check t =>
    if s.owner = none then
      match s.phase t with
      | .locking =>
        if s.count < limit then some (s.setPhase t (.trying false))
        else some { s.setPhase t .checked with owner := some t }
      | .woken notified expired =>
        if s.count < limit then some (s.setPhase t (.trying notified))
        else if expired then some { s.setPhase t (.last notified) with owner := some t }
        else some { s.setPhase t .checked with owner := some t }
      | _ => none
    else none
  | .block t =>
    match s.phase t with
    | .checked =>
      some { s.setPhase t .blocked with owner := none, sleepers := s.sleepers ++ [t] }
    | .joinChecked =>
      some { s.setPhase t .joinBlocked with owner := none, sleepers := s.sleepers ++ [t] }
    | _ => none
  | .retry t =>
    match s.phase t with
    | .trying _ => if s.count < limit then some (s.grant t) else some (s.refuse t .backing)
    | _ => none
  | .expire t =>
    match s.phase t with
    | .blocked => some (s.wake t (.woken false true))
    | .woken notified false => some (s.setPhase t (.woken notified true))
    | .joinBlocked => some (s.wake t (.joinWoken true))
    | .joinWoken false => some (s.setPhase t (.joinWoken true))
    | _ => none
  | .wakeSpuriously t =>
    match s.phase t with
    | .blocked => some (s.wake t (.woken false false))
    | .joinBlocked => some (s.wake t (.joinWoken false))
    | _ => none
  | .lastAttempt t =>
    match s.phase t with
    | .last _ =>
      if s.count < limit then some { s.grant t with owner := none }
      else some (s.refuse t .lastRefused)
    | _ => none
  | .release t =>
    if s.phase t = .idle ∧ 0 < s.held then
      let remaining := s.count - 1
      let phase : Phase :=
        if remaining < limit then .releasing remaining
        else if remaining ≤ 0 then .draining
        else .idle
      some { s.setPhase t phase with count := remaining, held := s.held - 1 }
    else none
  | .notifyOne t sleeper =>
    match s.phase t with
    | .releasing remaining =>
      let released := s.setPhase t (if remaining ≤ 0 then .draining else .idle)
      match sleeper with
      | none => if s.sleepers = [] then some released else none
      | some u =>
        if u ∈ s.sleepers ∧ (s.phase u).sleeps = true then
          some (released.wake u (s.phase u).notify)
        else none
    | _ => none
  | .notifyAll t =>
    if s.phase t = .draining ∧ s.owner = none then
      some { s with
        phase := Function.update (fun u => (s.phase u).notify) t .idle
        sleepers := [] }
    else none
  | .taskWait t => if s.phase t = .idle then some (s.setPhase t .joining) else none
  | .checkDone t =>
    if s.owner = none then
      match s.phase t with
      | .joining | .joinWoken false =>
        if s.count ≤ 0 then some (s.setPhase t .idle)
        else some { s.setPhase t .joinChecked with owner := some t }
      | .joinWoken true => some (s.setPhase t .idle)
      | _ => none
    else none

def Step (limit : Nat) (s : State T) (a : Action T) (s' : State T) : Prop :=
  step limit s a = some s'

end Step

/-! ## What the limiter is for -/

/-- No more slots are held than there are, a refusal is right, and nobody sleeps for a slot that
is there, unless a notification is still at work. -/
structure Sound (limit : Nat) (s : State T) : Prop where
  bounded : s.held ≤ limit
  refusals : ∀ n ∈ s.refusals, n = limit
  awake : ∀ t, s.phase t = .blocked → s.held < limit → ∃ u, (s.phase u).pending = true

/-- The counter is used when no refused 1 is in it, and `notify_one` comes when nobody is between
the predicate and the sleep, and gets to who waits for a slot, if there is one.  The notification
does not matter when all are notified next. -/
def careful (s : State T) (a : Action T) : Bool :=
  (!a.counts || s.refused.isEmpty) &&
  match a with
  | .notifyOne t sleeper =>
    (match s.phase t with
      | .releasing remaining => decide (remaining ≤ 0)
      | _ => false) ||
    (s.owner.all (fun u => s.phase u != .checked) &&
      (sleeper.any (fun u => s.phase u == .blocked) ||
        s.sleepers.all fun u => s.phase u != .blocked))
  | _ => true

/-! ## What a step can do -/

variable [DecidableEq T]

inductive Move (limit : Nat) (s : State T) : Action T → State T → Prop
  | grant {a : Action T} {t : T} {owner : Option T} (hcounts : a.counts = true)
      (hphase : (s.phase t).attempts = true) (hroom : s.count < limit)
      (howner : owner = s.owner ∨ owner = none ∧ (s.phase t).locks = true) :
      Move limit s a { s.grant t with owner := owner }
  | refuse {a : Action T} {t : T} {p : Phase} {refusals : List Nat} (hcounts : a.counts = true)
      (hphase : (s.phase t).attempts = true) (hfull : limit ≤ s.count) (hp : p.raised = true)
      (hlocks : p.locks = (s.phase t).locks)
      (hrefusals : refusals = s.refusals ∨ refusals = s.held :: s.refusals) :
      Move limit s a { s.refuse t p with refusals := refusals }
  | takeBack {a : Action T} {t : T} {p : Phase} {owner : Option T}
      (hphase : (s.phase t).raised = true) (hp : p = .idle ∨ p = .locking)
      (howner : owner = s.owner ∨ owner = none ∧ (s.phase t).locks = true) :
      Move limit s a { s.takeBack t p with owner := owner }
  | pass {a : Action T} {t : T} {notified : Bool}
      (hphase : s.phase t = .locking ∧ notified = false ∨
        ∃ expired, s.phase t = .woken notified expired) :
      Move limit s a (s.setPhase t (.trying notified))
  | fail {a : Action T} {t : T} {p : Phase} (hcounts : a.counts = true)
      (hphase : s.phase t = .locking ∨ ∃ notified expired, s.phase t = .woken notified expired)
      (hfull : limit ≤ s.count) (howner : s.owner = none)
      (hp : p = .checked ∨ ∃ notified, p = .last notified) :
      Move limit s a { s.setPhase t p with owner := some t }
  | block {a : Action T} {t : T} (hphase : s.phase t = .checked) :
      Move limit s a
        { s.setPhase t .blocked with owner := none, sleepers := s.sleepers ++ [t] }
  | unblock {a : Action T} {t : T} {expired : Bool} (hphase : s.phase t = .blocked) :
      Move limit s a (s.wake t (.woken false expired))
  | expire {a : Action T} {t : T} {notified : Bool} (hphase : s.phase t = .woken notified false) :
      Move limit s a (s.setPhase t (.woken notified true))
  | release {a : Action T} {t : T} {p : Phase} (hcounts : a.counts = true)
      (hphase : s.phase t = .idle) (hheld : 0 < s.held) (hpending : p ≠ .releasing (s.count - 1) →
        limit ≤ s.count - 1)
      (hp : p = .releasing (s.count - 1) ∨ p = .draining ∨ p = .idle) :
      Move limit s a { s.setPhase t p with count := s.count - 1, held := s.held - 1 }
  | notifyNone {t : T} {remaining : Int} (hphase : s.phase t = .releasing remaining)
      (hsleepers : s.sleepers = []) :
      Move limit s (.notifyOne t none) (s.setPhase t (if remaining ≤ 0 then .draining else .idle))
  | notifyOne {t u : T} {remaining : Int} (hphase : s.phase t = .releasing remaining)
      (hu : (s.phase u).sleeps = true) :
      Move limit s (.notifyOne t (some u))
        ((s.setPhase t (if remaining ≤ 0 then .draining else .idle)).wake u (s.phase u).notify)
  | notifyAll {a : Action T} {t : T} (hphase : s.phase t = .draining) (howner : s.owner = none) :
      Move limit s a { s with
        phase := Function.update (fun u => (s.phase u).notify) t .idle
        sleepers := [] }
  | join {a : Action T} {t : T} {p : Phase} {owner : Option T} {sleepers : List T}
      (hphase : (s.phase t).joins = true) (hp : p.joins = true)
      (howner : owner = s.owner ∧ p.locks = (s.phase t).locks ∨
        owner = none ∧ (s.phase t).locks = true ∧ p.locks = false ∨
        s.owner = none ∧ owner = some t)
      (hsleepers : ∀ u, u ≠ t → u ∈ s.sleepers → u ∈ sleepers) :
      Move limit s a { s.setPhase t p with owner := owner, sleepers := sleepers }

section Moves

variable {limit : Nat} {s s' : State T} {a : Action T}

theorem step_move (h : Step limit s a s') : Move limit s a s' := by
  rw [Step] at h
  cases a with
  | acquire t mode =>
    rw [step] at h
    split at h
    · rename_i hidle
      have hphase : (s.phase t).attempts = true := by rw [hidle]; rfl
      have hlocks : (s.phase t).locks = false := by rw [hidle]; rfl
      split at h
      · rename_i hroom
        cases h
        exact .grant rfl hphase hroom (.inl rfl)
      · rename_i hfull
        split at h
        · cases h
          exact .refuse rfl hphase (not_lt.mp hfull) rfl hlocks.symm (.inl rfl)
        · cases h
          exact .refuse rfl hphase (not_lt.mp hfull) rfl hlocks.symm (.inr rfl)
    · cases h
  | takeBack t =>
    rw [step] at h
    split at h
    · rename_i hphase
      cases h
      exact .takeBack (by rw [hphase]; rfl) (.inl rfl) (.inl rfl)
    · rename_i hphase
      cases h
      exact .takeBack (by rw [hphase]; rfl) (.inr rfl) (.inl rfl)
    · rename_i hphase
      cases h
      exact .takeBack (by rw [hphase]; rfl) (.inl rfl) (.inr ⟨rfl, by rw [hphase]; rfl⟩)
    · cases h
  | check t =>
    rw [step] at h
    split at h
    · rename_i howner
      split at h
      · rename_i hphase
        split at h
        · cases h
          exact .pass (.inl ⟨hphase, rfl⟩)
        · rename_i hfull
          cases h
          exact .fail rfl (.inl hphase) (not_lt.mp hfull) howner (.inl rfl)
      · rename_i notified expired hphase
        split at h
        · cases h
          exact .pass (.inr ⟨expired, hphase⟩)
        · rename_i hfull
          split at h
          · cases h
            exact .fail rfl (.inr ⟨notified, expired, hphase⟩) (not_lt.mp hfull) howner
              (.inr ⟨notified, rfl⟩)
          · cases h
            exact .fail rfl (.inr ⟨notified, expired, hphase⟩) (not_lt.mp hfull) howner (.inl rfl)
      · cases h
    · cases h
  | block t =>
    rw [step] at h
    split at h
    · rename_i hphase
      cases h
      exact .block hphase
    · rename_i hphase
      cases h
      exact .join (by rw [hphase]; rfl) rfl (.inr (.inl ⟨rfl, by rw [hphase]; rfl, rfl⟩))
        fun u _ hu => List.mem_append_left _ hu
    · cases h
  | retry t =>
    rw [step] at h
    split at h
    · rename_i notified hphase
      have hattempts : (s.phase t).attempts = true := by rw [hphase]; rfl
      split at h
      · rename_i hroom
        cases h
        exact .grant rfl hattempts hroom (.inl rfl)
      · rename_i hfull
        cases h
        exact .refuse rfl hattempts (not_lt.mp hfull) rfl (by rw [hphase]; rfl) (.inl rfl)
    · cases h
  | expire t =>
    rw [step] at h
    split at h
    · rename_i hphase
      cases h
      exact .unblock hphase
    · rename_i hphase
      cases h
      exact .expire hphase
    · rename_i hphase
      cases h
      exact .join (by rw [hphase]; rfl) rfl (.inl ⟨rfl, by rw [hphase]; rfl⟩)
        fun u hne hu => (List.mem_erase_of_ne hne).mpr hu
    · rename_i hphase
      cases h
      exact .join (by rw [hphase]; rfl) rfl (.inl ⟨rfl, by rw [hphase]; rfl⟩) fun u _ hu => hu
    · cases h
  | wakeSpuriously t =>
    rw [step] at h
    split at h
    · rename_i hphase
      cases h
      exact .unblock hphase
    · rename_i hphase
      cases h
      exact .join (by rw [hphase]; rfl) rfl (.inl ⟨rfl, by rw [hphase]; rfl⟩)
        fun u hne hu => (List.mem_erase_of_ne hne).mpr hu
    · cases h
  | lastAttempt t =>
    rw [step] at h
    split at h
    · rename_i notified hphase
      have hattempts : (s.phase t).attempts = true := by rw [hphase]; rfl
      have hlocks : (s.phase t).locks = true := by rw [hphase]; rfl
      split at h
      · rename_i hroom
        cases h
        exact .grant rfl hattempts hroom (.inr ⟨rfl, hlocks⟩)
      · rename_i hfull
        cases h
        exact .refuse rfl hattempts (not_lt.mp hfull) rfl hlocks.symm (.inl rfl)
    · cases h
  | release t =>
    rw [step] at h
    split at h
    · rename_i hidle
      cases h
      refine .release rfl hidle.1 hidle.2 ?_ ?_
      · intro hne
        by_contra hroom
        exact hne (if_pos (not_le.mp hroom))
      · split
        · exact .inl rfl
        · split
          · exact .inr (.inl rfl)
          · exact .inr (.inr rfl)
    · cases h
  | notifyOne t sleeper =>
    rw [step] at h
    split at h
    · rename_i remaining hphase
      cases sleeper with
      | none =>
        dsimp only at h
        split at h
        · rename_i hsleepers
          cases h
          exact .notifyNone hphase hsleepers
        · cases h
      | some u =>
        dsimp only at h
        split at h
        · rename_i hu
          cases h
          exact .notifyOne hphase hu.2
        · cases h
    · cases h
  | notifyAll t =>
    rw [step] at h
    split at h
    · rename_i hphase
      cases h
      exact .notifyAll hphase.1 hphase.2
    · cases h
  | taskWait t =>
    rw [step] at h
    split at h
    · rename_i hphase
      cases h
      exact .join (by rw [hphase]; rfl) rfl (.inl ⟨rfl, by rw [hphase]; rfl⟩) fun u _ hu => hu
    · cases h
  | checkDone t =>
    rw [step] at h
    split at h
    · rename_i howner
      split at h
      · rename_i hphase
        split at h
        · cases h
          exact .join (by rw [hphase]; rfl) rfl (.inl ⟨rfl, by rw [hphase]; rfl⟩) fun u _ hu => hu
        · cases h
          exact .join (by rw [hphase]; rfl) rfl (.inr (.inr ⟨howner, rfl⟩)) fun u _ hu => hu
      · rename_i hphase
        split at h
        · cases h
          exact .join (by rw [hphase]; rfl) rfl (.inl ⟨rfl, by rw [hphase]; rfl⟩) fun u _ hu => hu
        · cases h
          exact .join (by rw [hphase]; rfl) rfl (.inr (.inr ⟨howner, rfl⟩)) fun u _ hu => hu
      · rename_i hphase
        cases h
        exact .join (by rw [hphase]; rfl) rfl (.inl ⟨rfl, by rw [hphase]; rfl⟩) fun u _ hu => hu
      · cases h
    · cases h

end Moves

end Limiter

end Look
