/-
A program on a store of cells.

A `Holder` is the store and the values that a program has in its variables.  It reads
cells that it can reach, makes new ones and writes to the ones it has, and it writes
only what it has.  `Holder.Runs.frame` is the frame rule: a set of cells that it
cannot reach at first, and that no cell outside refers to, stays as it is.
-/
import Mathlib.Data.List.Perm.Subperm
import Mathlib.Tactic.Choose
import Look.Lib.Cells

namespace Look

namespace Cells

variable {V : Type}

/-- A cell that can be reached from a value. -/
inductive Visible (ref : V → Option Nat) (h : List (List V)) (v : V) : Nat → Prop
  | root {p : Nat} (hv : ref v = some p) : Visible ref h v p
  | child {p q : Nat} (hp : Visible ref h v p) (hq : Child ref h q p) : Visible ref h v q

structure Holder (V : Type) where
  cells : List (List V)
  held : List V

/-- One step of a program. -/
inductive Holder.Step (ref : V → Option Nat) : Holder V → Holder V → Prop
  | compute {s : Holder V} {v : V} (hv : ref v = none) : Step ref s { s with held := v :: s.held }
  | read {s : Holder V} {v e : V} {p : Nat} {es : List V} (hheld : v ∈ s.held)
      (hv : ref v = some p) (hp : s.cells[p]? = some es) (he : e ∈ es) :
      Step ref s { s with held := e :: s.held }
  | make {s : Holder V} {v : V} {es : List V} (hv : ref v = some s.cells.length)
      (hes : ∀ e ∈ es, e ∈ s.held) : Step ref s ⟨s.cells ++ [es], v :: s.held⟩
  | write {s : Holder V} {v : V} {p : Nat} {es : List V} (hheld : v ∈ s.held)
      (hv : ref v = some p) (hes : ∀ e ∈ es, e ∈ s.held) :
      Step ref s { s with cells := s.cells.set p es }

/-- Any number of steps. -/
def Holder.Runs (ref : V → Option Nat) : Holder V → Holder V → Prop :=
  Relation.ReflTransGen (Holder.Step ref)

section Holder

variable {ref : V → Option Nat} {h h' : List (List V)} {v : V} {s s' : Holder V}
  {foreign : Nat → Prop}

/-- What is reached from a value lies in a set that has its address and that no cell of
the set leads out of. -/
theorem Visible.within (inside : Nat → Prop) {p : Nat} (hp : Visible ref h v p)
    (hroot : ∀ q, ref v = some q → inside q)
    (hclosed : ∀ (p : Nat) es, inside p → h[p]? = some es → ∀ e ∈ es, ∀ q, ref e = some q →
      inside q) : inside p := by
  induction hp with
  | root hv => exact hroot _ hv
  | child _ hq ih =>
    obtain ⟨es, hes, e, he, href⟩ := hq
    exact hclosed _ es ih hes e he _ href

/-- A store whose cells are those of `h` on the foreign addresses, and a program that
cannot get to them. -/
structure Holder.Outside (ref : V → Option Nat) (foreign : Nat → Prop) (h : List (List V))
    (s : Holder V) : Prop where
  exist : ∀ p, foreign p → p < s.cells.length
  same : ∀ p, foreign p → s.cells[p]? = h[p]?
  held : ∀ v ∈ s.held, ∀ p, ref v = some p → p < s.cells.length ∧ ¬ foreign p
  closed : ∀ (p : Nat) es, ¬ foreign p → s.cells[p]? = some es → ∀ e ∈ es, ∀ q, ref e = some q →
    q < s.cells.length ∧ ¬ foreign q

theorem Holder.Outside.hold (hs : Holder.Outside ref foreign h s)
    (hv : ∀ p, ref v = some p → p < s.cells.length ∧ ¬ foreign p) :
    Holder.Outside ref foreign h { s with held := v :: s.held } where
  exist := hs.exist
  same := hs.same
  held := List.forall_mem_cons.mpr ⟨hv, hs.held⟩
  closed := hs.closed

/-- A new cell is not foreign. -/
theorem Holder.Outside.make {es : List V} (hs : Holder.Outside ref foreign h s)
    (hv : ref v = some s.cells.length) (hes : ∀ e ∈ es, e ∈ s.held) :
    Holder.Outside ref foreign h ⟨s.cells ++ [es], v :: s.held⟩ where
  exist p hp := by
    rw [List.length_append]
    exact Nat.lt_add_right _ (hs.exist p hp)
  same p hp := by
    rw [List.getElem?_append_left (hs.exist p hp)]
    exact hs.same p hp
  held := by
    rw [List.length_append]
    refine List.forall_mem_cons.mpr ⟨?_, ?_⟩
    · intro p hp
      obtain rfl := Option.some.inj (hv.symm.trans hp)
      exact ⟨Nat.lt_succ_self _, fun hf => absurd (hs.exist _ hf) (Nat.lt_irrefl _)⟩
    · intro u hu p hp
      exact ⟨Nat.lt_add_right _ (hs.held u hu p hp).1, (hs.held u hu p hp).2⟩
  closed := by
    intro p es' hp hes' e he q hq
    have hin : q < s.cells.length ∧ ¬ foreign q := by
      by_cases hlt : p < s.cells.length
      · rw [List.getElem?_append_left hlt] at hes'
        exact hs.closed p es' hp hes' e he q hq
      · rw [List.getElem?_append_right (Nat.le_of_not_lt hlt)] at hes'
        obtain rfl := List.mem_singleton.mp (List.mem_of_getElem? hes')
        exact hs.held e (hes e he) q hq
    rw [List.length_append]
    exact ⟨Nat.lt_add_right _ hin.1, hin.2⟩

/-- A write goes to a cell that is not foreign, and puts there what the program has. -/
theorem Holder.Outside.write {p : Nat} {es : List V} (hs : Holder.Outside ref foreign h s)
    (hheld : v ∈ s.held) (hv : ref v = some p) (hes : ∀ e ∈ es, e ∈ s.held) :
    Holder.Outside ref foreign h { s with cells := s.cells.set p es } where
  exist q hq := by
    rw [List.length_set]
    exact hs.exist q hq
  same q hq := by
    have hne : p ≠ q := by
      rintro rfl
      exact (hs.held v hheld p hv).2 hq
    rw [List.getElem?_set_ne hne]
    exact hs.same q hq
  held u hu q hq := by
    rw [List.length_set]
    exact hs.held u hu q hq
  closed := by
    intro q es' hq hes' e he q' hq'
    rw [List.length_set]
    by_cases hpq : p = q
    · subst hpq
      rw [List.getElem?_set_self (hs.held v hheld p hv).1] at hes'
      obtain rfl := Option.some.inj hes'
      exact hs.held e (hes e he) q' hq'
    · rw [List.getElem?_set_ne hpq] at hes'
      exact hs.closed q es' hq hes' e he q' hq'

theorem Holder.Outside.step (hs : Holder.Outside ref foreign h s)
    (hstep : Holder.Step ref s s') : Holder.Outside ref foreign h s' := by
  cases hstep with
  | compute hv => exact hs.hold fun p hp => absurd (hv.symm.trans hp) nofun
  | read hheld hv hp he => exact hs.hold (hs.closed _ _ (hs.held _ hheld _ hv).2 hp _ he)
  | make hv hes => exact hs.make hv hes
  | write hheld hv hes => exact hs.write hheld hv hes

/-- The foreign cells stay as they are. -/
theorem Holder.Runs.frame (hrun : Holder.Runs ref s s')
    (hs : Holder.Outside ref foreign h s) : ∀ p, foreign p → s'.cells[p]? = h[p]? := by
  have hs' : Holder.Outside ref foreign h s' := by
    induction hrun with
    | refl => exact hs
    | tail _ hstep ih => exact ih.step hstep
  exact hs'.same

end Holder

/-! ## Values without cycles -/

section Acyclic

variable {ref : V → Option Nat} {h : List (List V)} {v : V}

/-- A value from which no cycle is reached has a tree.  The list holds the cells on the
way to it, and there is room for all the others. -/
theorem Shape.of_path (hb : Bounded ref h) (room : Nat) {path : List Nat} (hnodup : path.Nodup)
    (hbelow : ∀ p ∈ path, p < h.length) (hroom : h.length < room + path.length)
    (hv : ∀ p, ref v = some p → p < h.length)
    (habove : ∀ p, ref v = some p → ∀ a ∈ path, Relation.TransGen (Child ref h) p a)
    (hacyclic : ∀ p, Visible ref h v p → ¬ Relation.TransGen (Child ref h) p p) :
    ∃ t, Shape ref h v t := by
  induction room generalizing path v with
  | zero =>
    have hsub : path ⊆ List.range h.length := fun p hp => List.mem_range.mpr (hbelow p hp)
    have hle := (hnodup.subperm hsub).length_le
    rw [List.length_range] at hle
    omega
  | succ room ih =>
    cases href : ref v with
    | none => exact ⟨.atom v, .atom href⟩
    | some p =>
      obtain ⟨es, hp⟩ : ∃ es, h[p]? = some es := ⟨_, List.getElem?_eq_getElem (hv p href)⟩
      have hfresh : p ∉ path := fun hmem => hacyclic p (.root href) (habove p href p hmem)
      have hchild : ∀ e ∈ es, ∀ q, ref e = some q → Child ref h q p :=
        fun e he q hq => ⟨es, hp, e, he, hq⟩
      have hts : ∀ e ∈ es, ∃ t, Shape ref h e t := by
        intro e he
        refine @ih _ (p :: path) (List.nodup_cons.mpr ⟨hfresh, hnodup⟩)
          (List.forall_mem_cons.mpr ⟨hv p href, hbelow⟩) (by rw [List.length_cons]; omega)
          (hb p _ hp e he) ?_ ?_
        · intro q hq
          refine List.forall_mem_cons.mpr ⟨.single (hchild e he q hq), ?_⟩
          exact fun a ha => .head (hchild e he q hq) (habove p href a ha)
        · intro q hq
          refine hacyclic q (hq.within (Visible ref h v) ?_ ?_)
          · exact fun q hq => (Visible.root href).child (hchild e he q hq)
          · exact fun p' es' hp' hes' e' he' q hq => hp'.child ⟨es', hes', e', he', hq⟩
      have : Nonempty (Unfolding V) := ⟨.node []⟩
      choose! tree htree using hts
      refine ⟨.node (es.map tree), .node href hp (List.length_map _) ?_⟩
      intro i e t he ht
      rw [List.getElem?_map, he] at ht
      obtain rfl := Option.some.inj ht
      exact htree e (List.mem_of_getElem? he)

/-- A value from which no cycle is reached has a tree. -/
theorem Shape.of_acyclic (hb : Bounded ref h) (hv : ∀ p, ref v = some p → p < h.length)
    (hacyclic : ∀ p, Visible ref h v p → ¬ Relation.TransGen (Child ref h) p p) :
    ∃ t, Shape ref h v t :=
  Shape.of_path hb (h.length + 1) List.nodup_nil nofun (Nat.lt_succ_self _) hv
    (fun _ _ => nofun) hacyclic

end Acyclic

end Cells

end Look
