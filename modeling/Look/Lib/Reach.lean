/-
Reaching a state with a property along a relation.
-/
import Mathlib.Logic.Relation

namespace Look

/-- The relation leads from `a` to an element with `P`. -/
def Reaches {α : Type} (step : α → α → Prop) (a : α) (P : α → Prop) : Prop :=
  ∃ b, Relation.ReflTransGen step a b ∧ P b

namespace Reaches

variable {α : Type} {step : α → α → Prop} {a b : α} {P Q : α → Prop}

theorem here (h : P a) : Reaches step a P := ⟨a, .refl, h⟩

theorem head (hs : step a b) (h : Reaches step b P) : Reaches step a P := by
  obtain ⟨c, hc, hp⟩ := h
  exact ⟨c, .head hs hc, hp⟩

theorem bind (h : Reaches step a P) (hq : ∀ b, P b → Reaches step b Q) : Reaches step a Q := by
  obtain ⟨b, hb, hp⟩ := h
  obtain ⟨c, hc, hq⟩ := hq b hp
  exact ⟨c, hb.trans hc, hq⟩

theorem mono (h : Reaches step a P) (hq : ∀ b, P b → Q b) : Reaches step a Q :=
  h.bind fun b hb => here (hq b hb)

end Reaches

/-! ## Labelled steps

A system that moves by labelled steps, and the runs in which every step meets a
condition on the state before it. -/

section Labelled

variable {σ ι : Type}

/-- One step whose label meets the condition. -/
def StepWhere (step : σ → ι → σ → Prop) (ok : σ → ι → Prop) (s s' : σ) : Prop :=
  ∃ a, step s a s' ∧ ok s a

/-- A run whose steps all meet the condition. -/
def RunWhere (step : σ → ι → σ → Prop) (ok : σ → ι → Prop) : σ → σ → Prop :=
  Relation.ReflTransGen (StepWhere step ok)

/-- A run with no condition on its steps. -/
def Run (step : σ → ι → σ → Prop) : σ → σ → Prop :=
  RunWhere step fun _ _ => True

variable {step : σ → ι → σ → Prop} {ok : σ → ι → Prop} {I : σ → Prop} {s t u : σ} {a : ι}

theorem RunWhere.refl : RunWhere step ok s s := Relation.ReflTransGen.refl

theorem RunWhere.snoc (h : RunWhere step ok s t) (hs : step t a u) (hok : ok t a) :
    RunWhere step ok s u :=
  Relation.ReflTransGen.tail h ⟨a, hs, hok⟩

theorem Run.snoc (h : Run step s t) (hs : step t a u) : Run step s u :=
  RunWhere.snoc h hs trivial

theorem RunWhere.mono {ok' : σ → ι → Prop} (hok : ∀ s a, ok s a → ok' s a)
    (h : RunWhere step ok s t) : RunWhere step ok' s t := by
  refine Relation.ReflTransGen.mono ?_ _ _ h
  rintro a b ⟨x, hx, hx'⟩
  exact ⟨x, hx, hok a x hx'⟩

/-- What one step keeps, a run keeps. -/
theorem RunWhere.keeps (hstep : ∀ s a s', step s a s' → ok s a → I s → I s')
    (h : RunWhere step ok s t) (hs : I s) : I t := by
  induction h with
  | refl => exact hs
  | tail _ hlast ih =>
    obtain ⟨a, ha, hok⟩ := hlast
    exact hstep _ a _ ha hok ih

end Labelled

/-! ## Systems that run -/

section Runs

variable {σ ι : Type} {step : σ → ι → Option σ} {ok : σ → ι → Bool} {s s' : σ} {actions : List ι}

/-- Steps that all meet a condition. -/
def stepsWhere (step : σ → ι → Option σ) (ok : σ → ι → Bool) (s : σ) (actions : List ι) :
    Option σ :=
  actions.foldlM (fun s a => if ok s a then step s a else none) s

theorem runWhere_of_stepsWhere (h : stepsWhere step ok s actions = some s') :
    RunWhere (fun s a s' => step s a = some s') (fun s a => ok s a = true) s s' := by
  induction actions generalizing s with
  | nil =>
    cases h
    exact .refl
  | cons a actions ih =>
    rw [stepsWhere, List.foldlM_cons, Option.bind_eq_bind, Option.bind_eq_some_iff] at h
    obtain ⟨s1, hs1, hrest⟩ := h
    split at hs1
    · rename_i hok
      exact Relation.ReflTransGen.head ⟨a, hs1, hok⟩ (ih hrest)
    · cases hs1

theorem run_of_foldlM (h : actions.foldlM step s = some s') :
    Run (fun s a s' => step s a = some s') s s' := by
  induction actions generalizing s with
  | nil =>
    cases h
    exact RunWhere.refl
  | cons a actions ih =>
    rw [List.foldlM_cons, Option.bind_eq_bind, Option.bind_eq_some_iff] at h
    obtain ⟨s1, hs1, hrest⟩ := h
    exact Relation.ReflTransGen.head ⟨a, hs1, trivial⟩ (ih hrest)

end Runs

end Look
