/-
`Value::deep_clone` on a store of arrays.

The clone of an array is made of new arrays only, which nobody else refers to, and it
unfolds into the same tree as the array.  The arrays on the way from the value to the
one that is being cloned are remembered, and one of them that is met again is replaced
by null; no array with a tree is met again.
-/
import Mathlib.Data.List.Perm.Subperm
import Look.Lib.Cells
import Look.Value

namespace Look

/-- The address of an array. -/
def Value.ref : Value → Option Nat
  | .array p => some p
  | _ => Option.none

/-- A value that is no closure. -/
def Value.isData : Value → Bool
  | .function _ => false
  | .bytecodeFn _ => false
  | _ => true

namespace Clone

open Cells (Unfolding Shape Bounded Child)

/-- The elements of an array, one after the other. -/
def cloneList (f : Arrays → Value → Arrays × Value) : Arrays → List Value → Arrays × List Value
  | dst, [] => (dst, [])
  | dst, e :: es =>
    let (dst, e') := f dst e
    let (dst, es') := cloneList f dst es
    (dst, e' :: es')

/-- `deep_clone_impl`: the arrays are read in `src`, and the new ones are added to `dst`.
`bcFnCloner` is the hook for closures of the bytecode.  The first number bounds how deep
arrays can be nested; it does not run out. -/
def deepCloneImpl (bcFnCloner : Nat → Value) (src : Arrays) :
    Nat → List Nat → Arrays → Value → Arrays × Value
  | 0, _, dst, _ => (dst, .none)
  | depth + 1, visited, dst, v =>
    match v with
    | .array p =>
      match src[p]? with
      | none => (dst, .array p)
      | some es =>
        if p ∈ visited then (dst, .none)
        else
          let (dst, es') := cloneList (deepCloneImpl bcFnCloner src depth (p :: visited)) dst es
          (dst ++ [es'], .array dst.length)
    | .bytecodeFn p => (dst, bcFnCloner p)
    | v => (dst, v)

/-- `deep_clone`. -/
def deepClone (bcFnCloner : Nat → Value) (arrays : Arrays) (v : Value) : Arrays × Value :=
  deepCloneImpl bcFnCloner arrays (arrays.length + 1) [] arrays v

/-! ## The new arrays -/

/-- All values of all arrays are data. -/
def DataOnly (arrays : Arrays) : Prop := ∀ es ∈ arrays, ∀ e ∈ es, e.isData = true

/-- Arrays that were added, with values that refer to them only and are data. -/
structure Fresh (dst dst' : Arrays) (vs : List Value) : Prop where
  grows : ∃ more, dst' = dst ++ more
  roots : ∀ v ∈ vs, v.isData = true ∧ ∀ q, v.ref = some q → dst.length ≤ q ∧ q < dst'.length
  cells : ∀ q es, dst.length ≤ q → dst'[q]? = some es → ∀ e ∈ es,
    e.isData = true ∧ ∀ q', e.ref = some q' → dst.length ≤ q' ∧ q' < dst'.length

section Fresh

variable {dst dst' dst'' : Arrays} {vs : List Value} {v : Value}

theorem Fresh.length_le (h : Fresh dst dst' vs) : dst.length ≤ dst'.length := by
  obtain ⟨more, rfl⟩ := h.grows
  rw [List.length_append]
  exact Nat.le_add_right _ _

theorem Fresh.of_atom (hdata : v.isData = true) (hv : v.ref = none) : Fresh dst dst [v] where
  grows := ⟨[], (List.append_nil _).symm⟩
  roots := by
    intro u hu
    obtain rfl := List.mem_singleton.mp hu
    exact ⟨hdata, fun q hq => absurd (hv.symm.trans hq) nofun⟩
  cells _ _ hq hes := absurd (List.getElem?_eq_some_iff.mp hes).1 (Nat.not_lt.mpr hq)

theorem Fresh.nil : Fresh dst dst [] where
  grows := ⟨[], (List.append_nil _).symm⟩
  roots := nofun
  cells _ _ hq hes := absurd (List.getElem?_eq_some_iff.mp hes).1 (Nat.not_lt.mpr hq)

/-- The clones of the first element and of the others. -/
theorem Fresh.cons (h : Fresh dst dst' [v]) (hs : Fresh dst' dst'' vs) :
    Fresh dst dst'' (v :: vs) where
  grows := by
    obtain ⟨more, rfl⟩ := h.grows
    obtain ⟨more', rfl⟩ := hs.grows
    exact ⟨more ++ more', List.append_assoc _ _ _⟩
  roots := by
    intro u hu
    rcases List.mem_cons.mp hu with rfl | hu
    · obtain ⟨hdata, hroot⟩ := h.roots u List.mem_cons_self
      exact ⟨hdata, fun q hq =>
        ⟨(hroot q hq).1, Nat.lt_of_lt_of_le (hroot q hq).2 hs.length_le⟩⟩
    · obtain ⟨hdata, hroot⟩ := hs.roots u hu
      exact ⟨hdata, fun q hq => ⟨Nat.le_trans h.length_le (hroot q hq).1, (hroot q hq).2⟩⟩
  cells := by
    intro q es hq hes e he
    by_cases hlt : q < dst'.length
    · obtain ⟨more, rfl⟩ := hs.grows
      rw [List.getElem?_append_left hlt] at hes
      obtain ⟨hdata, hcell⟩ := h.cells q es hq hes e he
      exact ⟨hdata, fun q' hq' =>
        ⟨(hcell q' hq').1, Nat.lt_of_lt_of_le (hcell q' hq').2 hs.length_le⟩⟩
    · obtain ⟨hdata, hcell⟩ := hs.cells q es (Nat.le_of_not_lt hlt) hes e he
      exact ⟨hdata, fun q' hq' => ⟨Nat.le_trans h.length_le (hcell q' hq').1, (hcell q' hq').2⟩⟩

/-- A new array with these elements. -/
theorem Fresh.array (h : Fresh dst dst' vs) : Fresh dst (dst' ++ [vs]) [.array dst'.length] where
  grows := by
    obtain ⟨more, rfl⟩ := h.grows
    exact ⟨more ++ [vs], List.append_assoc _ _ _⟩
  roots := by
    intro u hu
    obtain rfl := List.mem_singleton.mp hu
    refine ⟨rfl, ?_⟩
    intro q hq
    cases hq
    rw [List.length_append]
    exact ⟨h.length_le, Nat.lt_succ_self _⟩
  cells := by
    intro q es hq hes e he
    have hcell : e.isData = true ∧ ∀ q', e.ref = some q' → dst.length ≤ q' ∧ q' < dst'.length := by
      by_cases hlt : q < dst'.length
      · rw [List.getElem?_append_left hlt] at hes
        exact h.cells q es hq hes e he
      · rw [List.getElem?_append_right (Nat.le_of_not_lt hlt)] at hes
        obtain rfl := List.mem_singleton.mp (List.mem_of_getElem? hes)
        exact h.roots e he
    rw [List.length_append]
    exact ⟨hcell.1, fun q' hq' => ⟨(hcell.2 q' hq').1, Nat.lt_succ_of_lt (hcell.2 q' hq').2⟩⟩

end Fresh

section Clone

variable {bcFnCloner : Nat → Value} {src : Arrays}

theorem deepCloneImpl_array {p : Nat} {es : List Value} (hes : src[p]? = some es) (depth : Nat)
    (visited : List Nat) (dst : Arrays) :
    deepCloneImpl bcFnCloner src (depth + 1) visited dst (.array p) =
      if p ∈ visited then (dst, .none)
      else
        let cloned := cloneList (deepCloneImpl bcFnCloner src depth (p :: visited)) dst es
        (cloned.1 ++ [cloned.2], .array cloned.1.length) := by
  simp only [deepCloneImpl, hes]

/-- A list is cloned by cloning its elements. -/
theorem cloneList_fresh {f : Arrays → Value → Arrays × Value} {es : List Value} (dst : Arrays)
    (hf : ∀ dst, ∀ e ∈ es, Fresh dst (f dst e).1 [(f dst e).2]) :
    Fresh dst (cloneList f dst es).1 (cloneList f dst es).2 := by
  induction es generalizing dst with
  | nil => exact Fresh.nil
  | cons e es ih =>
    exact (hf dst e List.mem_cons_self).cons
      (ih (f dst e).1 fun dst e he => hf dst e (List.mem_cons_of_mem _ he))

/-- A clone is made of new arrays. -/
theorem deepCloneImpl_fresh (hb : Bounded Value.ref src) (hdata : DataOnly src) (depth : Nat)
    (visited : List Nat) (dst : Arrays) {v : Value} (hv : v.isData = true)
    (hroot : ∀ q, v.ref = some q → q < src.length) :
    Fresh dst (deepCloneImpl bcFnCloner src depth visited dst v).1
      [(deepCloneImpl bcFnCloner src depth visited dst v).2] := by
  induction depth generalizing visited dst v with
  | zero => exact Fresh.of_atom rfl rfl
  | succ depth ih =>
    cases v with
    | array p =>
      obtain ⟨es, hes⟩ : ∃ es, src[p]? = some es := ⟨_, List.getElem?_eq_getElem (hroot p rfl)⟩
      rw [deepCloneImpl_array hes]
      split
      · exact Fresh.of_atom rfl rfl
      · refine (cloneList_fresh dst fun dst e he => ?_).array
        exact ih (p :: visited) dst (hdata _ (List.mem_of_getElem? hes) e he) (hb p _ hes e he)
    | function p => cases hv
    | bytecodeFn p => cases hv
    | _ => exact Fresh.of_atom rfl rfl

/-! ## The tree of a clone -/

/-- The clones of elements with trees, where the clone of an element has its tree as long
as only arrays are added. -/
theorem cloneList_shape {f : Arrays → Value → Arrays × Value} {es : List Value}
    (ts : List (Unfolding Value)) (dst : Arrays)
    (hgrow : ∀ dst, ∀ e ∈ es, ∃ more, (f dst e).1 = dst ++ more)
    (hshape : ∀ dst (i : Nat) e t, es[i]? = some e → ts[i]? = some t →
      Shape Value.ref (f dst e).1 (f dst e).2 t) :
    (cloneList f dst es).2.length = es.length ∧ (∃ more, (cloneList f dst es).1 = dst ++ more) ∧
      ∀ (i : Nat) e' t, (cloneList f dst es).2[i]? = some e' → ts[i]? = some t →
        Shape Value.ref (cloneList f dst es).1 e' t := by
  induction es generalizing dst ts with
  | nil => exact ⟨rfl, ⟨[], (List.append_nil _).symm⟩, nofun⟩
  | cons e es ih =>
    obtain ⟨hlen, ⟨more, hmore⟩, hrest⟩ := ih ts.tail (f dst e).1
      (fun dst e he => hgrow dst e (List.mem_cons_of_mem _ he))
      (fun dst i e t he ht => hshape dst (i + 1) e t he (by rwa [List.getElem?_tail] at ht))
    refine ⟨congrArg (· + 1) hlen, ?_, ?_⟩
    · obtain ⟨more', hmore'⟩ := hgrow dst e List.mem_cons_self
      refine ⟨more' ++ more, ?_⟩
      rw [← List.append_assoc, ← hmore']
      exact hmore
    · intro i e' t he' ht
      cases i with
      | zero =>
        cases he'
        refine (hshape dst 0 e t rfl ht).mono ?_
        intro q es' hq
        show (cloneList f (f dst e).1 es).1[q]? = some es'
        rw [hmore, List.getElem?_append_left (List.getElem?_eq_some_iff.mp hq).1]
        exact hq
      | succ i => exact hrest i e' t he' (by rwa [List.getElem?_tail])

/-- The arrays on the way to the one that is cloned. -/
structure Path (src : Arrays) (visited : List Nat) (v : Value) : Prop where
  nodup : visited.Nodup
  below : ∀ a ∈ visited, a < src.length
  above : ∀ q, v.ref = some q → ∀ a ∈ visited, Relation.TransGen (Child Value.ref src) q a

theorem Path.length_le {visited : List Nat} {v : Value} (h : Path src visited v) :
    visited.length ≤ src.length := by
  have hsub : visited ⊆ List.range src.length :=
    fun a ha => List.mem_range.mpr (h.below a ha)
  have hle := (h.nodup.subperm hsub).length_le
  rwa [List.length_range] at hle

/-- An array with a tree is not on the way to itself. -/
theorem Path.fresh {visited : List Nat} {p : Nat} {t : Unfolding Value}
    (h : Path src visited (.array p)) (hs : Shape Value.ref src (.array p) t) : p ∉ visited :=
  fun hp => hs.not_cyclic rfl (h.above p rfl p hp)

theorem Path.child {visited : List Nat} {p : Nat} {es : List Value} {e : Value} {t : Unfolding Value}
    (h : Path src visited (.array p)) (hs : Shape Value.ref src (.array p) t)
    (hes : src[p]? = some es) (he : e ∈ es) : Path src (p :: visited) e where
  nodup := List.nodup_cons.mpr ⟨h.fresh hs, h.nodup⟩
  below := List.forall_mem_cons.mpr ⟨(List.getElem?_eq_some_iff.mp hes).1, h.below⟩
  above := by
    intro q hq
    have hchild : Child Value.ref src q p := ⟨es, hes, e, he, hq⟩
    refine List.forall_mem_cons.mpr ⟨.single hchild, ?_⟩
    exact fun a ha => (Relation.TransGen.single hchild).trans (h.above p rfl a ha)

/-- The clone of a value has the tree of the value. -/
theorem deepCloneImpl_shape (hb : Bounded Value.ref src) (hdata : DataOnly src) (depth : Nat)
    (visited : List Nat) (dst : Arrays) {v : Value} {t : Unfolding Value} (hv : v.isData = true)
    (hpath : Path src visited v) (hdepth : src.length < depth + visited.length)
    (hs : Shape Value.ref src v t) :
    Shape Value.ref (deepCloneImpl bcFnCloner src depth visited dst v).1
      (deepCloneImpl bcFnCloner src depth visited dst v).2 t := by
  induction depth generalizing visited dst v t with
  | zero => exact absurd hpath.length_le (by omega)
  | succ depth ih =>
    cases hs with
    | atom hatom =>
      cases v with
      | array p => cases hatom
      | function p => cases hv
      | bytecodeFn p => cases hv
      | _ => exact .atom rfl
    | @node _ p es ts hp hes hlen hts =>
      obtain rfl : v = .array p := by
        cases v <;> cases hp
        rfl
      have hs : Shape Value.ref src (.array p) (.node ts) := .node rfl hes hlen hts
      have hin : ∀ e ∈ es, e.isData = true ∧ ∀ q, e.ref = some q → q < src.length :=
        fun e he => ⟨hdata _ (List.mem_of_getElem? hes) e he, hb p _ hes e he⟩
      rw [deepCloneImpl_array hes, if_neg (hpath.fresh hs)]
      obtain ⟨hlen', -, hshape⟩ := cloneList_shape
        (f := deepCloneImpl bcFnCloner src depth (p :: visited)) ts dst
        (fun dst e he => (deepCloneImpl_fresh hb hdata depth _ dst (hin e he).1 (hin e he).2).grows)
        (fun dst i e t he ht => by
          have hmem := List.mem_of_getElem? he
          exact ih (p :: visited) dst (hin e hmem).1 (hpath.child hs hes hmem)
            (by rw [List.length_cons]; omega) (hts i e t he ht))
      refine .node rfl List.getElem?_concat_length (hlen.trans hlen'.symm) ?_
      intro i e' t he' ht
      refine (hshape i e' t he' ht).mono ?_
      intro q es' hq
      rw [List.getElem?_append_left (List.getElem?_eq_some_iff.mp hq).1]
      exact hq

variable (bcFnCloner) in
/-- A clone is a value of its own with the tree of the value. -/
theorem deepClone_spec (hb : Bounded Value.ref src) (hdata : DataOnly src) {v : Value}
    (hv : v.isData = true) (hroot : ∀ q, v.ref = some q → q < src.length) :
    Fresh src (deepClone bcFnCloner src v).1 [(deepClone bcFnCloner src v).2] ∧
      ∀ t, Shape Value.ref src v t →
        Shape Value.ref (deepClone bcFnCloner src v).1 (deepClone bcFnCloner src v).2 t := by
  refine ⟨deepCloneImpl_fresh hb hdata _ _ _ hv hroot, ?_⟩
  intro t hs
  refine deepCloneImpl_shape hb hdata _ _ _ hv ⟨List.nodup_nil, nofun, fun _ _ => nofun⟩ ?_ hs
  exact Nat.lt_succ_self _

end Clone

end Clone

end Look
