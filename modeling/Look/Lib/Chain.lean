/-
Chains of two kinds of steps.

A relation is the union of plain steps, of which there are never infinitely many in a row,
and of counted steps.  What decides whether it goes on forever is the counted steps alone:
`Jump` is any number of plain steps and then a counted one (`acc_step_iff`).
-/
import Mathlib.Logic.Relation
import Mathlib.Order.WellFounded

namespace Look

namespace Chain

open Relation

variable {α : Type} (plain counted : α → α → Prop)

/-- `b` is below `a`: plain steps down from `a`, then a counted one to `b`. -/
def Jump (b a : α) : Prop := ∃ m, counted b m ∧ ReflTransGen plain m a

def Step (b a : α) : Prop := plain b a ∨ counted b a

variable {plain counted}

theorem transGen_of_jump {b a : α} (h : Jump plain counted b a) :
    TransGen (Step plain counted) b a := by
  obtain ⟨m, hcounted, hplain⟩ := h
  exact .head' (.inr hcounted) (hplain.lift id fun _ _ h => .inl h)

/-- If plain steps alone come to an end, the steps do where the jumps do. -/
theorem acc_step_iff (hplain : ∀ a, Acc plain a) {a : α} :
    Acc (Step plain counted) a ↔ Acc (Jump plain counted) a := by
  constructor
  · intro h
    exact Subrelation.accessible transGen_of_jump h.transGen
  · intro h
    induction h with
    | intro a _ ih =>
      -- every element that plain steps from `a` come to is accessible
      have hbelow : ∀ m, ReflTransGen plain m a → Acc (Step plain counted) m := by
        intro m
        induction hplain m with
        | intro m _ ihm =>
          intro hm
          refine .intro m fun b hb => ?_
          obtain hb | hb := hb
          · exact ihm b hb (.head hb hm)
          · exact ih b ⟨m, hb, hm⟩
      exact hbelow a .refl

end Chain

end Look
