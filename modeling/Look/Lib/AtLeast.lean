/-
Having at least so many elements of a kind.

The elements of a type that need not be finite are counted from below, by a list without
repetitions.
-/
import Mathlib.Data.List.Nodup

namespace Look

/-- There are `n` elements with `P`. -/
def AtLeast {α : Type} (P : α → Prop) (n : Nat) : Prop :=
  ∃ xs : List α, xs.Nodup ∧ n ≤ xs.length ∧ ∀ x ∈ xs, P x

namespace AtLeast

variable {α : Type} {P Q : α → Prop} {n m : Nat} {x : α}

theorem zero : AtLeast P 0 := ⟨[], List.nodup_nil, Nat.le_refl _, nofun⟩

theorem mono (h : AtLeast P n) (hm : m ≤ n) : AtLeast P m := by
  obtain ⟨xs, hnodup, hlen, hxs⟩ := h
  exact ⟨xs, hnodup, Nat.le_trans hm hlen, hxs⟩

theorem imp (h : AtLeast P n) (hq : ∀ y, P y → Q y) : AtLeast Q n := by
  obtain ⟨xs, hnodup, hlen, hxs⟩ := h
  exact ⟨xs, hnodup, hlen, fun y hy => hq y (hxs y hy)⟩

/-- One element may have left. -/
theorem leave [DecidableEq α] (h : AtLeast P n) (x : α) (hq : ∀ y, y ≠ x → P y → Q y) :
    AtLeast Q (n - 1) := by
  obtain ⟨xs, hnodup, hlen, hxs⟩ := h
  refine ⟨xs.erase x, hnodup.erase x, ?_, ?_⟩
  · have hle := List.le_length_erase (a := x) (l := xs)
    omega
  · intro y hy
    obtain ⟨hne, hmem⟩ := (List.Nodup.mem_erase_iff hnodup).mp hy
    exact hq y hne (hxs y hmem)

/-- One element has joined. -/
theorem join (h : AtLeast P n) (hbefore : ¬ P x) (hafter : Q x) (hq : ∀ y, P y → Q y) :
    AtLeast Q (n + 1) := by
  obtain ⟨xs, hnodup, hlen, hxs⟩ := h
  have hx : x ∉ xs := fun hmem => hbefore (hxs x hmem)
  refine ⟨x :: xs, List.nodup_cons.mpr ⟨hx, hnodup⟩, Nat.succ_le_succ hlen, ?_⟩
  intro y hy
  rcases List.mem_cons.mp hy with rfl | hmem
  · exact hafter
  · exact hq y (hxs y hmem)

theorem exists_of_pos (h : AtLeast P n) (hn : 0 < n) : ∃ x, P x := by
  obtain ⟨xs, -, hlen, hxs⟩ := h
  obtain ⟨x, hx⟩ := List.exists_mem_of_length_pos (Nat.lt_of_lt_of_le hn hlen)
  exact ⟨x, hxs x hx⟩

end AtLeast

end Look
