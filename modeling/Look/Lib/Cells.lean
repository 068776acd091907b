/-
A store of cells that refer to each other.

A cell is a list of values, and a value may be the address of a cell.  `Shape` unfolds
a value into a tree; only a value from which no cycle can be reached has one.  When
every cell has an owner and refers to cells of the same owner only, what one owner
writes does not change the tree of a value of another owner.
-/
import Mathlib.Logic.Relation

namespace Look

namespace Cells

/-- A value without sharing. -/
inductive Unfolding (V : Type) where
  | atom (v : V)
  | node (ts : List (Unfolding V))

section Cells

variable {V Ω : Type} (ref : V → Option Nat) {h h' : List (List V)} {v : V} {t : Unfolding V}

/-- The tree of a value. -/
inductive Shape (h : List (List V)) : V → Unfolding V → Prop
  | atom {v : V} (hv : ref v = none) : Shape h v (.atom v)
  | node {v : V} {p : Nat} {es : List V} {ts : List (Unfolding V)} (hv : ref v = some p)
      (hp : h[p]? = some es) (hlen : ts.length = es.length)
      (hts : ∀ (i : Nat) e t, es[i]? = some e → ts[i]? = some t → Shape h e t) : Shape h v (.node ts)

/-- No value of a cell is a dangling address. -/
def Bounded (h : List (List V)) : Prop :=
  ∀ (p : Nat) es, h[p]? = some es → ∀ e ∈ es, ∀ q, ref e = some q → q < h.length

/-- A cell refers to cells of its own owner only. -/
def Closed (owner : Nat → Ω) (h : List (List V)) : Prop :=
  ∀ (p : Nat) es, h[p]? = some es → ∀ e ∈ es, ∀ q, ref e = some q → owner q = owner p

/-- The cell `q` is referred to by the cell `p`. -/
def Child (h : List (List V)) (q p : Nat) : Prop :=
  ∃ es, h[p]? = some es ∧ ∃ e ∈ es, ref e = some q

variable {ref}

/-- A store in which the cells of the value's owner are the same. -/
theorem Shape.frame {owner : Nat → Ω} {o : Ω} (hs : Shape ref h v t) (hclosed : Closed ref owner h)
    (hv : ∀ q, ref v = some q → owner q = o)
    (hsame : ∀ (q : Nat) es, owner q = o → h[q]? = some es → h'[q]? = some es) : Shape ref h' v t := by
  induction hs with
  | atom hatom => exact .atom hatom
  | node hp hes hlen _ ih =>
    have howner := hv _ hp
    refine .node hp (hsame _ _ howner hes) hlen ?_
    intro i e t he ht
    refine ih i e t he ht ?_
    intro q hq
    exact (hclosed _ _ hes e (List.mem_of_getElem? he) q hq).trans howner

/-- Back to a store in which the cells of the value's owner are the same. -/
theorem Shape.frame_back {owner : Nat → Ω} {o : Ω} (hs : Shape ref h' v t)
    (hclosed : Closed ref owner h) (hbounded : Bounded ref h)
    (hv : ∀ q, ref v = some q → q < h.length ∧ owner q = o)
    (hsame : ∀ (q : Nat) es, owner q = o → h[q]? = some es → h'[q]? = some es) : Shape ref h v t := by
  induction hs with
  | atom hatom => exact .atom hatom
  | node hp hes hlen _ ih =>
    obtain ⟨hlt, howner⟩ := hv _ hp
    have hes' := hsame _ _ howner (List.getElem?_eq_getElem hlt)
    obtain rfl := Option.some.inj (hes'.symm.trans hes)
    have hold := List.getElem?_eq_getElem hlt
    refine .node hp hold hlen ?_
    intro i e t he ht
    refine ih i e t he ht ?_
    intro q hq
    have hmem := List.mem_of_getElem? he
    exact ⟨hbounded _ _ hold e hmem q hq, (hclosed _ _ hold e hmem q hq).trans howner⟩

/-- A store that has all the cells of another one. -/
theorem Shape.mono (hs : Shape ref h v t)
    (hsame : ∀ (q : Nat) es, h[q]? = some es → h'[q]? = some es) : Shape ref h' v t := by
  induction hs with
  | atom hatom => exact .atom hatom
  | node hp hes hlen _ ih => exact .node hp (hsame _ _ hes) hlen ih

/-- No cycle can be reached from a value with a tree. -/
theorem Shape.acc (hs : Shape ref h v t) {p : Nat} (hv : ref v = some p) : Acc (Child ref h) p := by
  induction hs generalizing p with
  | atom hatom => exact absurd (hatom.symm.trans hv) nofun
  | @node v p' es ts hp hes hlen _ ih =>
    obtain rfl : p' = p := Option.some.inj (hp.symm.trans hv)
    constructor
    rintro q ⟨es', hes', e, he, hq⟩
    obtain rfl : es = es' := Option.some.inj (hes.symm.trans hes')
    obtain ⟨i, hi⟩ := List.mem_iff_getElem?.mp he
    have hlt : i < ts.length := by
      rw [hlen]
      exact (List.getElem?_eq_some_iff.mp hi).1
    exact ih i e ts[i] hi (List.getElem?_eq_getElem hlt) hq

theorem Shape.not_cyclic (hs : Shape ref h v t) {p : Nat} (hv : ref v = some p) :
    ¬ Relation.TransGen (Child ref h) p p := by
  have hacc : Acc (Relation.TransGen (Child ref h)) p := (hs.acc hv).transGen
  induction hacc with
  | intro p _ ih => exact fun hcycle => ih p hcycle hv hcycle

end Cells

end Cells

end Look
