/-
Merging from the bottom up.

`Merges P xs ys zs` says that `zs` takes its elements from the fronts of `xs` and `ys`; `P y x r`
says what a comparison of `y` with `x` may have answered.  A pass merges neighbouring runs of a
width, and the width doubles until one run is left.  The result has the elements of the list
whatever is answered.  Where the answers come from a strict weak order, it is sorted, and elements
of equal rank stand as they stood before.
-/
import Mathlib.Data.List.Perm.Basic
import Mathlib.Order.Defs.Unbundled

namespace Look

namespace Merging

variable {α : Type} {P : α → α → Bool → Prop}

/-- The front of `xs` is taken where a comparison has not put the front of `ys` before it. -/
inductive Merges (P : α → α → Bool → Prop) : List α → List α → List α → Prop where
  | nil : Merges P [] [] []
  | left {x xs ys zs} (h : ∀ y ∈ ys.head?, P y x false) (rest : Merges P xs ys zs) :
    Merges P (x :: xs) ys (x :: zs)
  | right {y xs ys zs} (h : ∀ x ∈ xs.head?, P y x true) (rest : Merges P xs ys zs) :
    Merges P xs (y :: ys) (y :: zs)

/-- Every two neighbouring runs of the width `w` are merged. -/
inductive Passes (P : α → α → Bool → Prop) (w : Nat) : List α → List α → Prop where
  | last {xs} (h : xs.length ≤ w) : Passes P w xs xs
  | pair {xs ys zs rest rest'} (hxs : xs.length = w) (hys : ys.length ≤ w) (hne : ys ≠ [])
    (hlast : ys.length < w → rest = []) (h : Merges P xs ys zs) (hrest : Passes P w rest rest') :
    Passes P w (xs ++ (ys ++ rest)) (zs ++ rest')

/-- Passes with growing widths. -/
inductive Sorts (P : α → α → Bool → Prop) : Nat → List α → List α → Prop where
  | done {w xs} (h : xs.length ≤ w) : Sorts P w xs xs
  | pass {w xs ys zs} (h : Passes P w xs ys) (rest : Sorts P (2 * w) ys zs) : Sorts P w xs zs

/-! ## Weaker answers -/

section Mono

variable {P' : α → α → Bool → Prop}

theorem Merges.mono {xs ys zs : List α} (hm : Merges P xs ys zs)
    (h : ∀ y x r, P y x r → P' y x r) : Merges P' xs ys zs := by
  induction hm with
  | nil => exact .nil
  | left hP _ ih => exact .left (fun y hy => h _ _ _ (hP y hy)) ih
  | right hP _ ih => exact .right (fun x hx => h _ _ _ (hP x hx)) ih

theorem Passes.mono {w : Nat} {xs ys : List α} (hp : Passes P w xs ys)
    (h : ∀ y x r, P y x r → P' y x r) : Passes P' w xs ys := by
  induction hp with
  | last hlen => exact .last hlen
  | pair hxs hys hne hlast hm _ ih => exact .pair hxs hys hne hlast (hm.mono h) ih

theorem Sorts.mono {w : Nat} {xs ys : List α} (hs : Sorts P w xs ys)
    (h : ∀ y x r, P y x r → P' y x r) : Sorts P' w xs ys := by
  induction hs with
  | done hlen => exact .done hlen
  | pass hp _ ih => exact .pass (hp.mono h) ih

end Mono

/-! ## The elements -/

theorem Merges.perm {xs ys zs : List α} (h : Merges P xs ys zs) : zs.Perm (xs ++ ys) := by
  induction h with
  | nil => exact List.Perm.refl []
  | left _ _ ih => exact ih.cons _
  | right _ _ ih => exact (ih.cons _).trans List.perm_middle.symm

theorem Passes.perm {w : Nat} {xs ys : List α} (h : Passes P w xs ys) : ys.Perm xs := by
  induction h with
  | last => exact List.Perm.refl _
  | pair _ _ _ _ h _ ih =>
    rw [← List.append_assoc]
    exact h.perm.append ih

theorem Sorts.perm {w : Nat} {xs ys : List α} (h : Sorts P w xs ys) : ys.Perm xs := by
  induction h with
  | done => exact List.Perm.refl _
  | pass h _ ih => exact ih.trans h.perm

/-! ## Answers of an order -/

section Order

variable {lt : α → α → Prop}

/-- No element belongs before one that stands in front of it. -/
def Sorted (lt : α → α → Prop) (xs : List α) : Prop := xs.Pairwise fun x y => ¬ lt y x

/-- Runs of the width `w` that are sorted. -/
inductive Runs (lt : α → α → Prop) (w : Nat) : List α → Prop where
  | last {xs} (h : xs.length ≤ w) (hs : Sorted lt xs) : Runs lt w xs
  | run {xs rest} (h : xs.length = w) (hs : Sorted lt xs) (hrest : Runs lt w rest) :
    Runs lt w (xs ++ rest)

/-- Two elements have the same rank. -/
def Alike (lt : α → α → Prop) (x y : α) : Prop := ¬ lt x y ∧ ¬ lt y x

theorem Runs.take {w : Nat} {xs : List α} (h : Runs lt w xs) : Sorted lt (xs.take w) := by
  cases h with
  | last h hs => rwa [List.take_of_length_le h]
  | run h hs _ => rwa [List.take_left' h]

theorem Runs.drop {w : Nat} {xs : List α} (h : Runs lt w xs) : Runs lt w (xs.drop w) := by
  cases h with
  | last h hs =>
    rw [List.drop_of_length_le h]
    exact .last (Nat.zero_le w) List.Pairwise.nil
  | run h _ hrest => rwa [List.drop_left' h]

theorem runs_one (xs : List α) : Runs lt 1 xs := by
  induction xs with
  | nil => exact .last (Nat.zero_le 1) List.Pairwise.nil
  | cons x xs ih =>
    have hx : Sorted lt [x] := List.pairwise_singleton _ x
    exact .run rfl hx ih

/-- The two runs in front, and those behind them. -/
theorem Runs.split {w : Nat} {xs ys rest : List α} (h : Runs lt w (xs ++ (ys ++ rest)))
    (hxs : xs.length = w) (hys : ys.length ≤ w) (hlast : ys.length < w → rest = []) :
    Sorted lt xs ∧ Sorted lt ys ∧ Runs lt w rest := by
  have hx := h.take
  rw [List.take_left' hxs] at hx
  have hbehind := h.drop
  rw [List.drop_left' hxs] at hbehind
  have hy := hbehind.take
  have hrest := hbehind.drop
  rcases Nat.lt_or_eq_of_le hys with hshort | hfull
  · obtain rfl := hlast hshort
    rw [List.append_nil, List.take_of_length_le hys] at hy
    exact ⟨hx, hy, .last (Nat.zero_le w) List.Pairwise.nil⟩
  · rw [List.take_left' hfull] at hy
    rw [List.drop_left' hfull] at hrest
    exact ⟨hx, hy, hrest⟩

section Rank

variable [DecidableRel lt]

instance (x y : α) : Decidable (Alike lt x y) := inferInstanceAs (Decidable (_ ∧ _))

/-- The elements of the rank of `a`, in order. -/
def rank (lt : α → α → Prop) [DecidableRel lt] (a : α) (xs : List α) : List α :=
  xs.filter (Alike lt a)

theorem rank_append (a : α) (xs ys : List α) : rank lt a (xs ++ ys) = rank lt a xs ++ rank lt a ys :=
  List.filter_append xs ys

end Rank

variable [IsStrictWeakOrder α lt]

theorem not_lt_trans {x y z : α} (hxy : ¬ lt x y) (hyz : ¬ lt y z) : ¬ lt x z := by
  intro hxz
  by_cases hyx : lt y x
  · exact hyz (IsTrans.trans y x z hyx hxz)
  · by_cases hzy : lt z y
    · exact hxy (IsTrans.trans x z y hxz hzy)
    · exact (IsStrictWeakOrder.incomp_trans x y z ⟨hxy, hyx⟩ ⟨hyz, hzy⟩).1 hxz

theorem lt_asymm' {x y : α} (hxy : lt x y) : ¬ lt y x := fun hyx =>
  Std.Irrefl.irrefl (r := lt) x (IsTrans.trans x y x hxy hyx)

/-- The comparisons have answered as the order says. -/
def Answers (lt : α → α → Prop) (y x : α) (r : Bool) : Prop := r = true ↔ lt y x

theorem Merges.sorted {xs ys zs : List α} (h : Merges (Answers lt) xs ys zs) (hx : Sorted lt xs)
    (hy : Sorted lt ys) : Sorted lt zs := by
  induction h with
  | nil => exact hx
  | @left x xs ys zs h rest ih =>
    have hx' := List.pairwise_cons.mp hx
    refine List.pairwise_cons.mpr ⟨fun z hz => ?_, ih hx'.2 hy⟩
    rcases List.mem_append.mp (rest.perm.mem_iff.mp hz) with hz | hz
    · exact hx'.1 z hz
    · cases ys with
      | nil => exact absurd hz List.not_mem_nil
      | cons y ys =>
        have hfirst : ¬ lt y x := fun hlt => Bool.false_ne_true ((h y rfl).mpr hlt)
        rcases List.mem_cons.mp hz with rfl | hz
        · exact hfirst
        · exact not_lt_trans ((List.pairwise_cons.mp hy).1 z hz) hfirst
  | @right y xs ys zs h rest ih =>
    have hy' := List.pairwise_cons.mp hy
    refine List.pairwise_cons.mpr ⟨fun z hz => ?_, ih hx hy'.2⟩
    rcases List.mem_append.mp (rest.perm.mem_iff.mp hz) with hz | hz
    · cases xs with
      | nil => exact absurd hz List.not_mem_nil
      | cons x xs =>
        have hfirst : ¬ lt x y := lt_asymm' ((h x rfl).mp rfl)
        rcases List.mem_cons.mp hz with rfl | hz
        · exact hfirst
        · exact not_lt_trans ((List.pairwise_cons.mp hx).1 z hz) hfirst
    · exact hy'.1 z hz

theorem Passes.runs {w : Nat} {xs ys : List α} (h : Passes (Answers lt) w xs ys)
    (hruns : Runs lt w xs) : Runs lt (2 * w) ys := by
  induction h with
  | last h =>
    have hs := hruns.take
    rw [List.take_of_length_le h] at hs
    exact .last (by omega) hs
  | @pair xs ys zs rest rest' hxs hys hne hlast h hrest ih =>
    obtain ⟨hx, hy, hbehind⟩ := hruns.split hxs hys hlast
    have hlen : zs.length = w + ys.length := by rw [h.perm.length_eq, List.length_append, hxs]
    rcases Nat.lt_or_eq_of_le hys with hshort | hfull
    · have hnil : rest' = [] := by
        rw [hlast hshort] at hrest
        exact List.length_eq_zero_iff.mp hrest.perm.length_eq
      rw [hnil, List.append_nil]
      exact .last (by omega) (h.sorted hx hy)
    · exact .run (by omega) (h.sorted hx hy) (ih hbehind)

theorem Sorts.sorted {w : Nat} {xs ys : List α} (h : Sorts (Answers lt) w xs ys)
    (hruns : Runs lt w xs) : Sorted lt ys := by
  induction h with
  | done h =>
    have hs := hruns.take
    rwa [List.take_of_length_le h] at hs
  | pass h _ ih => exact ih (h.runs hruns)

/-! ## Stability -/

section Stable

variable [DecidableRel lt]

/-- What belongs before the front of a sorted list has another rank than its elements. -/
theorem rank_of_lt_front {a y : α} {xs : List α} (hs : Sorted lt xs) (ha : Alike lt a y)
    (h : ∀ x ∈ xs.head?, lt y x) : rank lt a xs = [] := by
  refine List.filter_eq_nil_iff.mpr fun z hz hal => ?_
  have hal := of_decide_eq_true hal
  cases xs with
  | nil => exact absurd hz List.not_mem_nil
  | cons x xs =>
    have hyz : ¬ lt y z := not_lt_trans ha.2 hal.1
    rcases List.mem_cons.mp hz with rfl | hz
    · exact hyz (h z rfl)
    · exact not_lt_trans hyz ((List.pairwise_cons.mp hs).1 z hz) (h x rfl)

theorem Merges.rank {xs ys zs : List α} (h : Merges (Answers lt) xs ys zs) (hx : Sorted lt xs)
    (a : α) : rank lt a zs = rank lt a xs ++ rank lt a ys := by
  induction h with
  | nil => rfl
  | @left x xs ys zs h rest ih =>
    have hrest := ih (List.pairwise_cons.mp hx).2
    rw [← List.singleton_append (l := zs), ← List.singleton_append (l := xs), rank_append, hrest,
      rank_append, List.append_assoc]
  | @right y xs ys zs h rest ih =>
    rw [← List.singleton_append (l := zs), ← List.singleton_append (l := ys), rank_append, ih hx,
      rank_append]
    by_cases ha : Alike lt a y
    · rw [rank_of_lt_front hx ha fun x hx => (h x hx).mp rfl, List.nil_append, List.nil_append]
    · have hnone : Merging.rank lt a [y] = [] := List.filter_cons_of_neg (by simpa using ha)
      rw [hnone, List.nil_append, List.nil_append]

theorem Passes.rank {w : Nat} {xs ys : List α} (h : Passes (Answers lt) w xs ys)
    (hruns : Runs lt w xs) (a : α) : rank lt a ys = rank lt a xs := by
  induction h with
  | last => rfl
  | @pair xs ys zs rest rest' hxs hys hne hlast h hrest ih =>
    obtain ⟨hx, -, hbehind⟩ := hruns.split hxs hys hlast
    rw [rank_append, h.rank hx a, ih hbehind, rank_append, rank_append, List.append_assoc]

theorem Sorts.rank {w : Nat} {xs ys : List α} (h : Sorts (Answers lt) w xs ys)
    (hruns : Runs lt w xs) (a : α) : rank lt a ys = rank lt a xs := by
  induction h with
  | done => rfl
  | pass h _ ih => rw [ih (h.runs hruns), h.rank hruns a]

end Stable

end Order

end Merging

end Look
