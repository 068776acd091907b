/-
Maps that are kept as lists of pairs with ascending keys.

`put` overwrites or inserts, `erase` removes, and a walk through the list visits the keys in
ascending order.  No key is there twice.
-/
import Mathlib.Data.List.Sort

namespace Look

namespace SortedMap

variable {α β : Type} [LinearOrder α]

def erase (k : α) (ps : List (α × β)) : List (α × β) :=
  ps.filter fun p => decide (p.1 ≠ k)

def put (k : α) (v : β) (ps : List (α × β)) : List (α × β) :=
  (erase k ps).orderedInsert (fun p q => p.1 ≤ q.1) (k, v)

variable {k k' : α} {v v' : β} {ps : List (α × β)}

theorem mem_erase : (k', v') ∈ erase k ps ↔ (k', v') ∈ ps ∧ k' ≠ k := by
  rw [erase, List.mem_filter, decide_eq_true_eq]

theorem mem_put : (k', v') ∈ put k v ps ↔ (k' = k ∧ v' = v) ∨ ((k', v') ∈ ps ∧ k' ≠ k) := by
  rw [put, List.mem_orderedInsert, Prod.mk.injEq, mem_erase]

theorem keys_erase : (erase k ps).map Prod.fst = (ps.map Prod.fst).filter fun a => decide (a ≠ k) := by
  rw [erase, List.filter_map]
  rfl

theorem keys_put : ((put k v ps).map Prod.fst).Perm (k :: (erase k ps).map Prod.fst) :=
  (List.perm_orderedInsert _ _ _).map Prod.fst

theorem nodup_erase (h : (ps.map Prod.fst).Nodup) : ((erase k ps).map Prod.fst).Nodup := by
  rw [keys_erase]
  exact h.filter _

theorem nodup_put (h : (ps.map Prod.fst).Nodup) : ((put k v ps).map Prod.fst).Nodup := by
  rw [keys_put.nodup_iff, List.nodup_cons]
  refine ⟨?_, nodup_erase h⟩
  rw [keys_erase, List.mem_filter, decide_eq_true_eq]
  exact fun hk => hk.2 rfl

theorem erase_of_notMem (h : k ∉ ps.map Prod.fst) : erase k ps = ps := by
  refine List.filter_eq_self.mpr fun p hp => decide_eq_true fun he => h ?_
  exact he ▸ List.mem_map_of_mem hp

theorem perm_put (k : α) (v : β) (ps : List (α × β)) :
    (put k v ps).Perm ((k, v) :: erase k ps) :=
  List.perm_orderedInsert _ _ _

theorem perm_erase (h : (ps.map Prod.fst).Nodup) (hm : (k, v) ∈ ps) :
    ps.Perm ((k, v) :: erase k ps) := by
  induction ps with
  | nil => cases hm
  | cons p rest ih =>
    rw [List.map_cons, List.nodup_cons] at h
    rcases List.mem_cons.mp hm with rfl | hm
    · have hrest : erase k ((k, v) :: rest) = erase k rest :=
        List.filter_cons_of_neg (by simp)
      rw [hrest, erase_of_notMem h.1]
    · have hne : p.1 ≠ k := fun he => h.1 (he ▸ List.mem_map_of_mem hm)
      have hrest : erase k (p :: rest) = p :: erase k rest :=
        List.filter_cons_of_pos (by simpa using hne)
      rw [hrest]
      exact ((ih h.2 hm).cons p).trans (.swap _ _ _)

theorem count_keys_erase_self : ((erase k ps).map Prod.fst).count k = 0 := by
  rw [List.count_eq_zero, keys_erase, List.mem_filter, decide_eq_true_eq]
  exact fun hk => hk.2 rfl

theorem count_keys_erase_of_ne (h : k' ≠ k) :
    ((erase k ps).map Prod.fst).count k' = (ps.map Prod.fst).count k' := by
  rw [keys_erase, List.count_filter (by simpa using h)]

end SortedMap

end Look
