/-
`session::regenerate` beside requests that still carry the old id.

It loads the text of the session, removes it, and stores it under a new id.  `session::set` of
another request loads the text, changes it and stores it again: a store that comes after the
removal brings the old id back, and a store between the load and the removal is lost for the new
id.  Where every store comes before the load, nothing is left under the old id and the new id
has what it held (`retired_of_run`).

The new id is a random number that nobody has.  What is stored stays until it is removed: the
expiry of sessions is not modelled.
-/
import Mathlib.Logic.Function.Basic
import Look.Lib.Reach
import Look.Web.SessionStore

namespace Look

namespace Session

namespace Regenerate

open Http (Bytes)

/-- Where `session::regenerate` is. -/
inductive Stage where
  | ready
  /-- `sess_load` has returned this. -/
  | loaded (blob : Bytes)
  /-- The old session was removed. -/
  | removed (blob : Bytes)
  | done
deriving DecidableEq

structure System where
  /-- The text under the old id, empty when there is none. -/
  old : Bytes
  /-- The text under the id that `gen_session_id` returns. -/
  new : Bytes
  stage : Stage
  /-- The other requests: in the middle of `session::set`, or not. -/
  pending : Nat → Option Pending
  /-- What the old id held when it was removed. -/
  held : Bytes

def System.start (blob : Bytes) : System := ⟨blob, [], .ready, fun _ => none, []⟩

inductive Action where
  | get (r : Nat) (key : Bytes)
  | has (r : Nat) (key : Bytes)
  /-- `sess_load` of `session::set`. -/
  | load (r : Nat) (key val : Bytes)
  /-- `sess_store` of `session::set`. -/
  | store (r : Nat)
  /-- `sess_load`, `sess_remove` and `sess_store` of `session::regenerate`. -/
  | regenerateLoad
  | regenerateRemove
  | regenerateStore
deriving DecidableEq

/-- One step; nothing when it cannot happen. -/
def step (s : System) : Action → Option System
  | .get r _ | .has r _ => if (s.pending r).isNone then some s else none
  | .load r key val =>
    if (s.pending r).isNone then
      some { s with pending := Function.update s.pending r (some ⟨key, val, s.old⟩) }
    else none
  | .store r =>
    match s.pending r with
    | none => none
    | some p => some { s with
        old := sessBlobSet p.blob p.key p.val
        pending := Function.update s.pending r none }
  | .regenerateLoad =>
    match s.stage with
    | .ready => some { s with stage := .loaded s.old }
    | _ => none
  | .regenerateRemove =>
    match s.stage with
    | .loaded blob => some { s with old := [], held := s.old, stage := .removed blob }
    | _ => none
  | .regenerateStore =>
    match s.stage with
    | .removed blob =>
      some { s with new := if blob.isEmpty then s.new else blob, stage := .done }
    | _ => none

def Step (s : System) (a : Action) (s' : System) : Prop := step s a = some s'

/-- When all requests have finished, nothing is found under the old id, and the new id has what it
held. -/
def Retired (s : System) : Prop :=
  s.stage = .done → (∀ r, s.pending r = none) → s.old = [] ∧ s.new = s.held

/-- `session::set` stores before `session::regenerate` loads. -/
def early (s : System) : Action → Bool
  | .store _ => s.stage == .ready
  | _ => true

/-- How far the old id is retired. -/
def Retiring (s : System) : Prop :=
  match s.stage with
  | .ready => s.new = []
  | .loaded blob => s.new = [] ∧ s.old = blob
  | .removed blob => s.new = [] ∧ s.old = [] ∧ s.held = blob
  | .done => s.old = [] ∧ s.new = s.held

section Steps

variable {s s' : System} {a : Action}

theorem Retiring.step (h : Retiring s) (hs : Step s a s') (hok : early s a = true) :
    Retiring s' := by
  rw [Step] at hs
  cases a with
  | get r key =>
    rw [Regenerate.step] at hs
    split at hs
    · cases hs
      exact h
    · cases hs
  | has r key =>
    rw [Regenerate.step] at hs
    split at hs
    · cases hs
      exact h
    · cases hs
  | load r key val =>
    rw [Regenerate.step] at hs
    split at hs
    · cases hs
      exact h
    · cases hs
  | store r =>
    have hready : s.stage = .ready := by simpa [early] using hok
    rw [Regenerate.step] at hs
    split at hs
    · cases hs
    · cases hs
      rw [Retiring, hready] at h
      simpa [Retiring, hready] using h
  | regenerateLoad =>
    rw [Regenerate.step] at hs
    split at hs
    · rename_i hstage
      cases hs
      rw [Retiring, hstage] at h
      exact ⟨h, rfl⟩
    · cases hs
  | regenerateRemove =>
    rw [Regenerate.step] at hs
    split at hs
    · rename_i blob hstage
      cases hs
      rw [Retiring, hstage] at h
      exact ⟨h.1, rfl, h.2⟩
    · cases hs
  | regenerateStore =>
    rw [Regenerate.step] at hs
    split at hs
    · rename_i blob hstage
      cases hs
      rw [Retiring, hstage] at h
      obtain ⟨hnew, hold, hheld⟩ := h
      refine ⟨hold, ?_⟩
      show (if blob.isEmpty then s.new else blob) = s.held
      -- an empty text is not stored, and nothing was there
      cases blob with
      | nil => exact hnew.trans hheld.symm
      | cons b rest => exact hheld.symm
    · cases hs

/-- Where every `session::set` stores before the session is regenerated, the old id is retired. -/
theorem retired_of_run {blob : Bytes}
    (h : RunWhere Step (fun s a => early s a = true) (System.start blob) s) : Retired s := by
  have hstart : Retiring (System.start blob) := rfl
  have hkept : Retiring s := by
    refine RunWhere.keeps (I := Retiring) ?_ h hstart
    intro s a s' hs hok hi
    exact hi.step hs hok
  intro hdone _
  rwa [Retiring, hdone] at hkept

end Steps

/-- A session with one key is regenerated. -/
theorem retired_of_run_one : ∃ s : System, s.stage = .done ∧ s.new ≠ [] ∧ Retired s := by
  have hrun : stepsWhere step early (System.start []) [.load 0 [107] [118], .store 0,
      .regenerateLoad, .regenerateRemove, .load 0 [107] [119], .regenerateStore] = some _ := rfl
  exact ⟨_, rfl, by decide, retired_of_run (runWhere_of_stepsWhere hrun)⟩

/-- A request has loaded the text of a session that is logged in, and stores it again under the old
id when the session was regenerated. -/
theorem not_retired : ∃ s : System, Run Step (System.start [117, 61, 49, 10]) s ∧
    s.stage = .done ∧ (∀ r, s.pending r = none) ∧ sessBlobGet s.old [117] = some [49] ∧
    ¬ Retired s := by
  have hrun : [.load 0 [107] [118], .regenerateLoad, .regenerateRemove, .regenerateStore,
      .store 0].foldlM step (System.start [117, 61, 49, 10]) = some _ := rfl
  have hpending : ∀ r : Nat, Function.update (Function.update (fun _ : Nat => (none : Option Pending))
      0 (some ⟨[107], [118], [117, 61, 49, 10]⟩)) 0 none r = none := by
    intro r
    rw [Function.update_idem]
    by_cases hr : r = 0
    · subst hr
      exact Function.update_self ..
    · exact Function.update_of_ne hr ..
  refine ⟨_, run_of_foldlM hrun, rfl, hpending, by decide, ?_⟩
  intro h
  exact absurd (h rfl hpending).1 (by decide)

end Regenerate

end Session

end Look
