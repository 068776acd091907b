/-
Requests that share a session.

`session::set` loads the text of the session, changes one line and stores the text
again.  Other requests of the same session may load and store in between: then the
text that is stored has the old values of the keys that they have set.  As long as no
other key was changed between the load and the store of a set, nothing is lost.

`last` is not part of the source: it records the value that a request has set last for
a key.
-/
import Mathlib.Logic.Function.Basic
import Look.Lib.Reach
import Look.Web.SessionBlob

namespace Look

namespace Session

open Http (Bytes)

/-- A request between the load and the store of `session::set`, with what it loaded. -/
structure Pending where
  key : Bytes
  val : Bytes
  blob : Bytes
deriving DecidableEq

structure System where
  /-- The text that is stored for the session. -/
  blob : Bytes
  pending : Nat → Option Pending
  last : Nat → Bytes → Option Bytes

def System.start (blob : Bytes) : System := ⟨blob, fun _ => none, fun _ _ => none⟩

/-- `session::get`. -/
def System.get (s : System) (key : Bytes) : Option Bytes := sessBlobGet s.blob key

inductive Action where
  | get (r : Nat) (key : Bytes)
  | load (r : Nat) (key val : Bytes)
  | store (r : Nat)
deriving DecidableEq

/-- One step of a request: `session::get`, or the `sess_load` or the `sess_store` of
`session::set`.  Nothing when it cannot happen. -/
def step (s : System) : Action → Option System
  | .get r _ => if (s.pending r).isNone then some s else none
  | .load r key val =>
    if (s.pending r).isNone then
      some { s with pending := Function.update s.pending r (some ⟨key, val, s.blob⟩) }
    else none
  | .store r =>
    match s.pending r with
    | none => none
    | some p => some {
        blob := sessBlobSet p.blob p.key p.val
        pending := Function.update s.pending r none
        last := Function.update s.last r (Function.update (s.last r) p.key (some p.val)) }

def Step (s : System) (a : Action) (s' : System) : Prop := step s a = some s'

/-- A request sets its own keys only. -/
def ownKeys (owner : Bytes → Nat) : Action → Bool
  | .load r key _ => owner key == r
  | _ => true

def OwnKeys (owner : Bytes → Nat) (a : Action) : Prop := ownKeys owner a = true

/-- When a set stores, the other keys still have the values that it has loaded. -/
def Undisturbed (s : System) : Action → Prop
  | .store r => ∀ p, s.pending r = some p → ∀ k, k ≠ p.key →
      sessBlobGet s.blob k = sessBlobGet p.blob k
  | _ => True

/-! ## Nothing is lost -/

/-- Every key has the value that its request has set last. -/
def Kept (s : System) : Prop := ∀ r k v, s.last r k = some v → s.get k = some v

/-- What a run keeps: requests are in the middle of setting keys of their own. -/
structure Inv (owner : Bytes → Nat) (s : System) : Prop where
  kept : Kept s
  own : ∀ r p, s.pending r = some p → owner p.key = r
  ownLast : ∀ r k v, s.last r k = some v → owner k = r

section Steps

variable {owner : Bytes → Nat} {s s' : System}

theorem Inv.start (owner : Bytes → Nat) (blob : Bytes) : Inv owner (System.start blob) :=
  ⟨nofun, nofun, nofun⟩

theorem Inv.load (h : Inv owner s) {r : Nat} {key : Bytes} (hown : owner key = r) (val : Bytes) :
    Inv owner { s with pending := Function.update s.pending r (some ⟨key, val, s.blob⟩) } := by
  refine ⟨h.kept, ?_, h.ownLast⟩
  intro r' p hp
  by_cases hr : r' = r
  · subst hr
    have hp : some (Pending.mk key val s.blob) = some p :=
      (Function.update_self r' _ s.pending).symm.trans hp
    cases hp
    exact hown
  · exact h.own r' p ((Function.update_of_ne hr _ _).symm.trans hp)

/-- The values that requests have set last, after one more set. -/
theorem last_cases {r r' : Nat} {p : Pending} {k v : Bytes}
    (h : Function.update s.last r (Function.update (s.last r) p.key (some p.val)) r' k = some v) :
    (r' = r ∧ k = p.key ∧ v = p.val) ∨ ((r' = r → k ≠ p.key) ∧ s.last r' k = some v) := by
  by_cases hr : r' = r
  · subst hr
    rw [Function.update_self] at h
    by_cases hk : k = p.key
    · subst hk
      rw [Function.update_self] at h
      cases h
      exact Or.inl ⟨rfl, rfl, rfl⟩
    · rw [Function.update_of_ne hk] at h
      exact Or.inr ⟨fun _ => hk, h⟩
  · rw [Function.update_of_ne hr] at h
    exact Or.inr ⟨fun hr' => absurd hr' hr, h⟩

theorem Inv.store (h : Inv owner s) {r : Nat} {p : Pending} (hp : s.pending r = some p)
    (hok : ∀ k, k ≠ p.key → sessBlobGet s.blob k = sessBlobGet p.blob k) :
    Inv owner {
      blob := sessBlobSet p.blob p.key p.val
      pending := Function.update s.pending r none
      last := Function.update s.last r (Function.update (s.last r) p.key (some p.val)) } := by
  have hown := h.own r p hp
  refine ⟨?_, ?_, ?_⟩
  · intro r' k v hlast
    show sessBlobGet (sessBlobSet p.blob p.key p.val) k = some v
    rcases last_cases hlast with ⟨-, rfl, rfl⟩ | ⟨hne, hold⟩
    · exact sessBlobGet_set_self p.blob p.key p.val
    · -- A key of another request, or another key of this one.
      have hk : k ≠ p.key := by
        intro hk
        have hr : r' = r := by rw [← h.ownLast r' k v hold, hk, hown]
        exact hne hr hk
      rw [sessBlobGet_set_other p.blob p.val hk, ← hok k hk]
      exact h.kept r' k v hold
  · intro r' q hq
    by_cases hr : r' = r
    · subst hr
      exact absurd ((Function.update_self r' _ s.pending).symm.trans hq) nofun
    · exact h.own r' q ((Function.update_of_ne hr _ _).symm.trans hq)
  · intro r' k v hlast
    rcases last_cases hlast with ⟨rfl, rfl, -⟩ | ⟨-, hold⟩
    · exact hown
    · exact h.ownLast r' k v hold

theorem Inv.step {a : Action} (h : Inv owner s) (hs : Step s a s') (hown : OwnKeys owner a)
    (hok : Undisturbed s a) : Inv owner s' := by
  have hstep : Session.step s a = some s' := hs
  cases a with
  | get r key =>
    rw [Session.step] at hstep
    split at hstep
    · cases hstep
      exact h
    · cases hstep
  | load r key val =>
    rw [Session.step] at hstep
    split at hstep
    · cases hstep
      exact h.load (beq_iff_eq.mp hown) val
    · cases hstep
  | store r =>
    rw [Session.step] at hstep
    split at hstep
    · cases hstep
    · rename_i p hp
      cases hstep
      exact h.store hp (hok p hp)

end Steps

/-- Requests that set keys of their own, in any order: if no other key is changed between
the load and the store of a set, every key has the value that its request has set
last. -/
theorem kept_of_undisturbed (owner : Bytes → Nat) (blob : Bytes) {s : System}
    (h : RunWhere Step (fun s a => OwnKeys owner a ∧ Undisturbed s a) (System.start blob) s) :
    Kept s :=
  (RunWhere.keeps (I := Inv owner) (fun _ a _ hs hok hi => hi.step (a := a) hs hok.1 hok.2) h
    (Inv.start owner blob)).kept

/-- The store of a set that has loaded another value of a key loses what was set last
for it. -/
theorem lost_of_stale {s s' : System} {r r' : Nat} {p : Pending} {k v : Bytes}
    (hp : s.pending r = some p) (hk : k ≠ p.key) (hstale : sessBlobGet p.blob k ≠ some v)
    (hlast : s.last r' k = some v) (hs : Step s (.store r) s') : ¬ Kept s' := by
  have hstep : step s (.store r) = some s' := hs
  rw [step, hp] at hstep
  cases hstep
  intro hkept
  have hsame : Function.update s.last r (Function.update (s.last r) p.key (some p.val)) r' k =
      some v := by
    by_cases hr : r' = r
    · subst hr
      rw [Function.update_self, Function.update_of_ne hk]
      exact hlast
    · rw [Function.update_of_ne hr]
      exact hlast
  have hget := hkept r' k v hsame
  rw [System.get, sessBlobGet_set_other p.blob p.val hk] at hget
  exact hstale hget

/-- A check that the stored text is what a set has loaded. -/
def unchanged (s : System) : Action → Bool
  | .store r => (s.pending r).all fun p => s.blob == p.blob
  | _ => true

theorem undisturbed_of_unchanged {s : System} {a : Action} (h : unchanged s a = true) :
    Undisturbed s a := by
  cases a with
  | store r =>
    intro p hp k _
    rw [unchanged, hp, Option.all_some, beq_iff_eq] at h
    rw [h]
  | _ => trivial

/-- The first byte of a key says whose it is. -/
def firstByte (key : Bytes) : Nat := (key.headD 0).toNat

/-- Two requests that set a key each, one after the other. -/
theorem kept_of_undisturbed_two : ∃ s, Kept s ∧ s.get [1] = some [7] ∧ s.get [2] = some [8] := by
  have hrun : (stepsWhere step (fun s a => ownKeys firstByte a && unchanged s a) (System.start [])
      [.load 1 [1] [7], .get 2 [1], .store 1, .load 2 [2] [8], .get 1 [1], .store 2]).any
      (fun s => s.last 1 [1] == some [7] && s.last 2 [2] == some [8]) = true := by
    decide +kernel
  obtain ⟨s, hs, hlast⟩ := (Option.any_eq_true _ _).mp hrun
  rw [Bool.and_eq_true, beq_iff_eq, beq_iff_eq] at hlast
  have hkept : Kept s := by
    refine kept_of_undisturbed firstByte [] (RunWhere.mono ?_ (runWhere_of_stepsWhere hs))
    intro t a hok
    rw [Bool.and_eq_true] at hok
    exact ⟨hok.1, undisturbed_of_unchanged hok.2⟩
  exact ⟨s, hkept, hkept 1 [1] [7] hlast.1, hkept 2 [2] [8] hlast.2⟩

/-- Two requests that load before either of them has stored: the first set is lost. -/
theorem update_lost : ∃ s, RunWhere Step (fun _ a => OwnKeys firstByte a) (System.start []) s ∧
    s.pending 1 = none ∧ s.pending 2 = none ∧ s.last 1 [1] = some [7] ∧ s.get [1] = none ∧
    ¬ Kept s := by
  have hrun : (stepsWhere step (fun _ a => ownKeys firstByte a) (System.start [])
      [.load 1 [1] [7], .load 2 [2] [8], .store 1, .store 2]).any
      (fun s => s.pending 1 == none && (s.pending 2 == none && (s.last 1 [1] == some [7] &&
        s.get [1] == none))) = true := by
    decide +kernel
  obtain ⟨s, hs, hend⟩ := (Option.any_eq_true _ _).mp hrun
  rw [Bool.and_eq_true, Bool.and_eq_true, Bool.and_eq_true, beq_iff_eq, beq_iff_eq, beq_iff_eq,
    beq_iff_eq] at hend
  obtain ⟨h1, h2, hlast, hget⟩ := hend
  refine ⟨s, runWhere_of_stepsWhere hs, h1, h2, hlast, hget, ?_⟩
  intro hkept
  exact absurd (hget.symm.trans (hkept 1 [1] [7] hlast)) nofun

end Session

end Look
