/-
Scanners: an automaton that walks over a list and marks some of its elements.

`numbered` replaces the marked elements by texts with their numbers.  Two scanners give the same
list if and only if they mark the same elements, when an element can be told from the text that
replaces it.
-/
import Mathlib.Data.List.Induction

namespace Look

namespace Scan

variable {σ τ α : Type}

/-- The marked elements, replaced by `text` of their numbers from `k + 1` on. -/
def numbered (step : σ → α → σ) (mark : σ → α → Bool) (text : Nat → List α) :
    σ → Nat → List α → List α
  | _, _, [] => []
  | s, k, c :: rest =>
    if mark s c then text (k + 1) ++ numbered step mark text (step s c) (k + 1) rest
    else c :: numbered step mark text (step s c) k rest

/-- Two scanners mark the same elements of a list. -/
def Agree (step : σ → α → σ) (mark : σ → α → Bool) (step' : τ → α → τ) (mark' : τ → α → Bool)
    (s : σ) (t : τ) (input : List α) : Prop :=
  ∀ p c rest, input = p ++ c :: rest → mark (p.foldl step s) c = mark' (p.foldl step' t) c

variable {step : σ → α → σ} {mark : σ → α → Bool} {step' : τ → α → τ} {mark' : τ → α → Bool}

theorem agree_cons {s : σ} {t : τ} {c : α} {rest : List α} :
    Agree step mark step' mark' s t (c :: rest) ↔
      mark s c = mark' t c ∧ Agree step mark step' mark' (step s c) (step' t c) rest := by
  constructor
  · exact fun h => ⟨h [] c rest rfl, fun p d rest' hp => h (c :: p) d rest' (by rw [hp]; rfl)⟩
  · rintro ⟨hc, hrest⟩ p d rest' hp
    cases p with
    | nil =>
      cases hp
      exact hc
    | cons b p =>
      cases hp
      exact hrest p d rest' rfl

theorem numbered_eq_iff {text : Nat → List α}
    (hdiff : ∀ s t c k x y, mark s c = true ∨ mark' t c = true → text k ++ x ≠ c :: y)
    (s : σ) (t : τ) (k : Nat) (input : List α) :
    numbered step mark text s k input = numbered step' mark' text t k input ↔
      Agree step mark step' mark' s t input := by
  induction input generalizing s t k with
  | nil => exact ⟨fun _ p c rest hp => absurd hp (by simp), fun _ => rfl⟩
  | cons c rest ih =>
    rw [agree_cons, numbered, numbered]
    cases hs : mark s c with
    | true =>
      cases ht : mark' t c with
      | true =>
        rw [if_pos rfl, if_pos rfl, List.append_right_inj, ih, and_iff_right rfl]
      | false =>
        rw [if_pos rfl, if_neg Bool.false_ne_true]
        exact ⟨fun h => absurd h (hdiff s t c _ _ _ (Or.inl hs)), fun h => nomatch h.1⟩
    | false =>
      cases ht : mark' t c with
      | true =>
        rw [if_neg Bool.false_ne_true, if_pos rfl]
        exact ⟨fun h => absurd h.symm (hdiff s t c _ _ _ (Or.inr ht)), fun h => nomatch h.1⟩
      | false =>
        rw [if_neg Bool.false_ne_true, if_neg Bool.false_ne_true, List.cons.injEq,
          and_iff_right rfl, ih, and_iff_right rfl]

/-- Scanners that stay related mark the same elements. -/
theorem agree_of_related {R : σ → τ → Prop} {input : List α} {s : σ} {t : τ} (h : R s t)
    (hmark : ∀ p c rest, input = p ++ c :: rest → R (p.foldl step s) (p.foldl step' t) →
      mark (p.foldl step s) c = mark' (p.foldl step' t) c)
    (hstep : ∀ p c rest, input = p ++ c :: rest → R (p.foldl step s) (p.foldl step' t) →
      R (step (p.foldl step s) c) (step' (p.foldl step' t) c)) :
    Agree step mark step' mark' s t input := by
  have hrel : ∀ p rest, input = p ++ rest → R (p.foldl step s) (p.foldl step' t) := by
    intro p
    induction p using List.reverseRecOn with
    | nil => exact fun _ _ => h
    | append_singleton p c ih =>
      intro rest hp
      rw [List.append_assoc, List.singleton_append] at hp
      rw [List.foldl_append, List.foldl_append]
      exact hstep p c rest hp (ih _ hp)
  exact fun p c rest hp => hmark p c rest hp (hrel p _ hp)

end Scan

end Look
