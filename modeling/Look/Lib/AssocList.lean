/-
Association lists that are updated in place.

`upsert` overwrites the first pair with a key, or appends a pair when there is
none.  It makes a list of pairs a map: a lookup of the key gives the new value,
a lookup of any other key gives what it gave before, and no key is ever added
twice.
-/
import Mathlib.Data.List.Induction
import Mathlib.Data.List.Nodup

namespace Look

namespace AssocList

variable {α β : Type} [DecidableEq α]

def upsert (k : α) (v : β) : List (α × β) → List (α × β)
  | [] => [(k, v)]
  | (a, b) :: rest => if a = k then (a, v) :: rest else (a, b) :: upsert k v rest

def lookup (k : α) : List (α × β) → Option β
  | [] => none
  | (a, b) :: rest => if a = k then some b else lookup k rest

theorem lookup_eq_none {k : α} {ps : List (α × β)} (h : k ∉ ps.map Prod.fst) :
    lookup k ps = none := by
  induction ps with
  | nil => rfl
  | cons p rest ih =>
    rw [List.map_cons, List.mem_cons, not_or] at h
    rw [lookup, if_neg (Ne.symm h.1)]
    exact ih h.2

theorem mem_of_lookup {k : α} {v : β} {ps : List (α × β)} (h : lookup k ps = some v) :
    (k, v) ∈ ps := by
  induction ps with
  | nil => cases h
  | cons p rest ih =>
    rw [lookup] at h
    split at h
    · rename_i hk
      cases h
      exact hk ▸ List.mem_cons_self
    · exact List.mem_cons_of_mem _ (ih h)

theorem isSome_lookup {k : α} {ps : List (α × β)} (h : k ∈ ps.map Prod.fst) :
    (lookup k ps).isSome = true := by
  induction ps with
  | nil => cases h
  | cons p rest ih =>
    rw [List.map_cons, List.mem_cons] at h
    rw [lookup]
    split
    · rfl
    · rename_i hk
      exact ih (h.resolve_left fun he => hk he.symm)

theorem lookup_of_mem {k : α} {v : β} {ps : List (α × β)} (h : (ps.map Prod.fst).Nodup)
    (hm : (k, v) ∈ ps) : lookup k ps = some v := by
  induction ps with
  | nil => cases hm
  | cons p rest ih =>
    rw [List.map_cons, List.nodup_cons] at h
    rw [lookup]
    rcases List.mem_cons.mp hm with rfl | hm
    · rw [if_pos rfl]
    · have hne : p.1 ≠ k := fun he => h.1 (he ▸ List.mem_map_of_mem hm)
      rw [if_neg hne]
      exact ih h.2 hm

theorem upsert_of_notMem {k : α} {v : β} {ps : List (α × β)} (h : k ∉ ps.map Prod.fst) :
    upsert k v ps = ps ++ [(k, v)] := by
  induction ps with
  | nil => rfl
  | cons p rest ih =>
    rw [List.map_cons, List.mem_cons, not_or] at h
    rw [upsert, if_neg (Ne.symm h.1), ih h.2, List.cons_append]

theorem lookup_upsert_self (k : α) (v : β) (ps : List (α × β)) :
    lookup k (upsert k v ps) = some v := by
  induction ps with
  | nil => rw [upsert, lookup, if_pos rfl]
  | cons p rest ih =>
    rw [upsert]
    split
    · rename_i hk
      rw [lookup, if_pos hk]
    · rename_i hk
      rw [lookup, if_neg hk, ih]

theorem lookup_upsert_of_ne {k k' : α} (v : β) (ps : List (α × β)) (h : k' ≠ k) :
    lookup k' (upsert k v ps) = lookup k' ps := by
  induction ps with
  | nil => simp [upsert, lookup, Ne.symm h]
  | cons p rest ih =>
    rw [upsert]
    split
    · rename_i hk
      have hne : p.1 ≠ k' := fun hp => h (hp.symm.trans hk)
      rw [lookup, lookup, if_neg hne, if_neg hne]
    · rw [lookup, lookup, ih]

/-- The keys of a list of pairs after an update. -/
theorem keys_upsert (k : α) (v : β) (ps : List (α × β)) :
    (upsert k v ps).map Prod.fst =
      if k ∈ ps.map Prod.fst then ps.map Prod.fst else ps.map Prod.fst ++ [k] := by
  induction ps with
  | nil => simp [upsert]
  | cons p rest ih =>
    rw [upsert]
    split
    · rename_i hk
      rw [if_pos (by simp [hk])]
      rfl
    · rename_i hk
      rw [List.map_cons, ih, List.map_cons]
      by_cases hmem : k ∈ rest.map Prod.fst
      · rw [if_pos hmem, if_pos (List.mem_cons_of_mem _ hmem)]
      · have hnot : k ∉ p.1 :: rest.map Prod.fst := by
          rw [List.mem_cons, not_or]
          exact ⟨Ne.symm hk, hmem⟩
        rw [if_neg hmem, if_neg hnot, List.cons_append]

theorem nodup_keys_upsert (k : α) (v : β) {ps : List (α × β)} (h : (ps.map Prod.fst).Nodup) :
    ((upsert k v ps).map Prod.fst).Nodup := by
  rw [keys_upsert]
  split
  · exact h
  · rename_i hmem
    rw [List.nodup_append]
    refine ⟨h, by simp, fun a ha b hb => ?_⟩
    rw [List.mem_singleton] at hb
    rw [hb]
    rintro rfl
    exact hmem ha

theorem head?_upsert (k : α) (v : β) {ps : List (α × β)} (h : ps ≠ []) :
    (upsert k v ps).head?.map Prod.fst = ps.head?.map Prod.fst := by
  cases ps with
  | nil => exact absurd rfl h
  | cons p rest =>
    rw [upsert]
    split <;> rfl

/-- The pairs of a list, written one after the other. -/
def upsertAll (ps : List (α × β)) : List (α × β) :=
  ps.foldl (fun acc p => upsert p.1 p.2 acc) []

theorem upsertAll_append (ps : List (α × β)) (k : α) (v : β) :
    upsertAll (ps ++ [(k, v)]) = upsert k v (upsertAll ps) := by
  rw [upsertAll, List.foldl_append]
  rfl

theorem keys_upsertAll [BEq α] [LawfulBEq α] (ps : List (α × β)) :
    (upsertAll ps).map Prod.fst = (ps.map Prod.fst).eraseDups := by
  induction ps using List.reverseRecOn with
  | nil => rfl
  | append_singleton ps p ih =>
    rw [upsertAll_append, keys_upsert, ih, List.map_append, List.map_singleton,
      List.eraseDups_append]
    by_cases hmem : p.1 ∈ ps.map Prod.fst
    · rw [if_pos (List.mem_eraseDups.mpr hmem)]
      simp [List.removeAll, hmem]
    · rw [if_neg fun h => hmem (List.mem_eraseDups.mp h)]
      simp [List.removeAll, hmem, List.eraseDups_cons]

theorem upsertAll_of_nodup {ps : List (α × β)} (h : (ps.map Prod.fst).Nodup) :
    upsertAll ps = ps := by
  induction ps using List.reverseRecOn with
  | nil => rfl
  | append_singleton ps p ih =>
    rw [List.map_append, List.map_singleton, List.nodup_append] at h
    have hnot : p.1 ∉ ps.map Prod.fst := fun hmem => h.2.2 _ hmem _ List.mem_cons_self rfl
    rw [upsertAll_append, ih h.1, upsert_of_notMem hnot]

theorem nodup_upsertAll (ps : List (α × β)) : ((upsertAll ps).map Prod.fst).Nodup := by
  induction ps using List.reverseRecOn with
  | nil => exact List.nodup_nil
  | append_singleton ps p ih =>
    rw [upsertAll_append]
    exact nodup_keys_upsert _ _ ih

/-- The last value of a key counts. -/
theorem lookup_upsertAll (k : α) (ps : List (α × β)) :
    lookup k (upsertAll ps) = lookup k ps.reverse := by
  induction ps using List.reverseRecOn with
  | nil => rfl
  | append_singleton ps p ih =>
    rw [upsertAll_append, List.reverse_append, List.reverse_singleton, List.singleton_append, lookup]
    split
    · rename_i hk
      rw [← hk, lookup_upsert_self]
    · rename_i hk
      rw [lookup_upsert_of_ne _ _ (Ne.symm hk), ih]

/-- A list without two pairs of one key is known from its keys and lookups. -/
theorem eq_map_lookup (d : β) {ps : List (α × β)} (h : (ps.map Prod.fst).Nodup) :
    ps = (ps.map Prod.fst).map fun k => (k, (lookup k ps).getD d) := by
  induction ps with
  | nil => rfl
  | cons p ps ih =>
    rw [List.map_cons, List.nodup_cons] at h
    have hrest : (ps.map Prod.fst).map (fun k => (k, (lookup k (p :: ps)).getD d)) =
        (ps.map Prod.fst).map fun k => (k, (lookup k ps).getD d) := by
      refine List.map_congr_left fun k hk => ?_
      have hne : p.1 ≠ k := fun heq => h.1 (heq ▸ hk)
      rw [lookup, if_neg hne]
    rw [List.map_cons, List.map_cons, hrest, ← ih h.2, lookup, if_pos rfl]
    rfl

theorem upsertAll_eq [BEq α] [LawfulBEq α] (d : β) (ps : List (α × β)) :
    upsertAll ps = (ps.map Prod.fst).eraseDups.map fun k => (k, (lookup k ps.reverse).getD d) := by
  rw [eq_map_lookup d (nodup_upsertAll ps), keys_upsertAll]
  simp only [lookup_upsertAll]

end AssocList

end Look
