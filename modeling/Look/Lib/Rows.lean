/-
Rows of a table with a key, and the UPDATE statement.
-/
import Mathlib.Data.List.Nodup

namespace Look

section Rows

variable {α κ : Type}

/-- `UPDATE … SET … WHERE …`: every row that meets the condition is changed. -/
def updateWhere (p : α → Bool) (f : α → α) (rows : List α) : List α :=
  rows.map fun r => if p r then f r else r

variable {p : α → Bool} {f : α → α} {rows : List α} {key : α → κ} {r : α}

theorem mem_updateWhere {r' : α} :
    r' ∈ updateWhere p f rows ↔ ∃ r ∈ rows, (if p r then f r else r) = r' := by
  rw [updateWhere, List.mem_map]

theorem mem_updateWhere_of_neg (h : r ∈ rows) (hp : p r = false) : r ∈ updateWhere p f rows := by
  refine mem_updateWhere.mpr ⟨r, h, ?_⟩
  rw [hp, if_neg Bool.false_ne_true]

theorem mem_updateWhere_of_pos (h : r ∈ rows) (hp : p r = true) : f r ∈ updateWhere p f rows := by
  refine mem_updateWhere.mpr ⟨r, h, ?_⟩
  rw [hp, if_pos rfl]

/-- A row is one of the old rows, or one that was changed. -/
theorem updateWhere_cases {r' : α} (h : r' ∈ updateWhere p f rows) :
    (r' ∈ rows ∧ p r' = false) ∨ ∃ r ∈ rows, p r = true ∧ r' = f r := by
  obtain ⟨r, hr, rfl⟩ := mem_updateWhere.mp h
  cases hp : p r with
  | false =>
    rw [if_neg Bool.false_ne_true]
    exact Or.inl ⟨hr, hp⟩
  | true =>
    rw [if_pos rfl]
    exact Or.inr ⟨r, hr, hp, rfl⟩

/-- An UPDATE that leaves the keys alone. -/
theorem map_key_updateWhere (hf : ∀ r, key (f r) = key r) :
    (updateWhere p f rows).map key = rows.map key := by
  rw [updateWhere, List.map_map]
  refine List.map_congr_left fun r _ => ?_
  rw [Function.comp_apply]
  split
  · exact hf r
  · rfl

/-- A key that is unique belongs to one row. -/
theorem eq_of_key (h : (rows.map key).Nodup) {a b : α} (ha : a ∈ rows) (hb : b ∈ rows)
    (hkey : key a = key b) : a = b :=
  List.inj_on_of_nodup_map h ha hb hkey

end Rows

end Look
