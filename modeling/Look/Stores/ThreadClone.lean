/-
`Value::deep_clone` and `Value::clone_for_thread` on a store of arrays that may contain
themselves.

The recursion of the source has no bound, and `Clones` derives what it returns.  On data
both functions recurse alike: the arrays on the way are not entered again, so the
recursion is never deeper than there are arrays.  A clone is made of new arrays, and the
rest of the program cannot get to them, nor the holder of the clone to the others.
-/
import Look.Lib.Holders
import Look.Stores.Clone

namespace Look

namespace Clone

open Cells (Unfolding Shape Bounded Child Visible Holder)

/-- `clone_for_thread_impl`.  The first number bounds how deep arrays can be nested. -/
def cloneForThreadImpl (bcFnCloner fnCloner : Nat → Value) (src : Arrays) :
    Nat → List Nat → Arrays → Value → Arrays × Value
  | 0, _, dst, _ => (dst, .none)
  | depth + 1, visited, dst, v =>
    match v with
    | .int i => (dst, .int i)
    | .float d => (dst, .float d)
    | .bool b => (dst, .bool b)
    | .none => (dst, .none)
    | .channel p => (dst, .channel p)
    | .websocket p => (dst, .websocket p)
    | .sseConn p => (dst, .sseConn p)
    -- a string of its own, with the same text
    | .string s => (dst, .string s)
    | .array p =>
      match src[p]? with
      | none => (dst, .array p)
      | some es =>
        if p ∈ visited then (dst, .none)
        else
          let (dst, es') :=
            cloneList (cloneForThreadImpl bcFnCloner fnCloner src depth (p :: visited)) dst es
          (dst ++ [es'], .array dst.length)
    | .bytecodeFn p => (dst, bcFnCloner p)
    | .function p => (dst, fnCloner p)

/-- `clone_for_thread`. -/
def cloneForThread (bcFnCloner fnCloner : Nat → Value) (arrays : Arrays) (v : Value) :
    Arrays × Value :=
  cloneForThreadImpl bcFnCloner fnCloner arrays (arrays.length + 1) [] arrays v

/-! ## The recursion without a bound -/

mutual

/-- The call for a value returns, with the arrays on the way to it in `visited`. -/
inductive Clones (src : Arrays) : List Nat → Arrays → Value → Arrays → Value → Prop
  | atom {visited : List Nat} {dst : Arrays} {v : Value} (hdata : v.isData = true)
      (hv : v.ref = none) : Clones src visited dst v dst v
  | back {visited : List Nat} {dst : Arrays} {p : Nat} (hp : p ∈ visited) :
      Clones src visited dst (.array p) dst .none
  | array {visited : List Nat} {dst dst' : Arrays} {p : Nat} {es es' : List Value}
      (hes : src[p]? = some es) (hp : p ∉ visited)
      (hall : ClonesAll src (p :: visited) dst es dst' es') :
      Clones src visited dst (.array p) (dst' ++ [es']) (.array dst'.length)

/-- The calls for the elements of an array return, one after the other. -/
inductive ClonesAll (src : Arrays) : List Nat → Arrays → List Value → Arrays → List Value → Prop
  | nil {visited : List Nat} {dst : Arrays} : ClonesAll src visited dst [] dst []
  | cons {visited : List Nat} {dst dst' dst'' : Arrays} {e e' : Value} {es es' : List Value}
      (he : Clones src visited dst e dst' e') (hes : ClonesAll src visited dst' es dst'' es') :
      ClonesAll src visited dst (e :: es) dst'' (e' :: es')

end

section Clones

variable {bcFnCloner fnCloner : Nat → Value} {src : Arrays}

theorem cloneList_clones {f : Arrays → Value → Arrays × Value} {es : List Value}
    {visited : List Nat} (dst : Arrays)
    (hf : ∀ dst, ∀ e ∈ es, Clones src visited dst e (f dst e).1 (f dst e).2) :
    ClonesAll src visited dst es (cloneList f dst es).1 (cloneList f dst es).2 := by
  induction es generalizing dst with
  | nil => exact .nil
  | cons e es ih =>
    exact .cons (hf dst e List.mem_cons_self)
      (ih (f dst e).1 fun dst e he => hf dst e (List.mem_cons_of_mem _ he))

/-- The bound on the depth is never met when it exceeds the number of arrays that are not
on the way. -/
theorem deepCloneImpl_clones (hb : Bounded Value.ref src) (hdata : DataOnly src) (depth : Nat)
    {visited : List Nat} (hnodup : visited.Nodup) (hbelow : ∀ p ∈ visited, p < src.length)
    (hdepth : src.length < depth + visited.length) (dst : Arrays) {v : Value}
    (hv : v.isData = true) (hroot : ∀ q, v.ref = some q → q < src.length) :
    Clones src visited dst v (deepCloneImpl bcFnCloner src depth visited dst v).1
      (deepCloneImpl bcFnCloner src depth visited dst v).2 := by
  induction depth generalizing visited dst v with
  | zero =>
    have hsub : visited ⊆ List.range src.length := fun p hp => List.mem_range.mpr (hbelow p hp)
    have hle := (hnodup.subperm hsub).length_le
    rw [List.length_range] at hle
    omega
  | succ depth ih =>
    cases v with
    | array p =>
      obtain ⟨es, hes⟩ : ∃ es, src[p]? = some es := ⟨_, List.getElem?_eq_getElem (hroot p rfl)⟩
      rw [deepCloneImpl_array hes]
      split
      next hp => exact .back hp
      next hp =>
        refine .array hes hp (cloneList_clones dst fun dst e he => ?_)
        exact ih (List.nodup_cons.mpr ⟨hp, hnodup⟩)
          (List.forall_mem_cons.mpr ⟨hroot p rfl, hbelow⟩) (by rw [List.length_cons]; omega) dst
          (hdata _ (List.mem_of_getElem? hes) e he) (hb p _ hes e he)
    | function p => cases hv
    | bytecodeFn p => cases hv
    | _ => exact .atom rfl rfl

/-- On data the two functions are one. -/
theorem cloneForThreadImpl_eq (hdata : DataOnly src) (depth : Nat) (visited : List Nat)
    (dst : Arrays) {v : Value} (hv : v.isData = true) :
    cloneForThreadImpl bcFnCloner fnCloner src depth visited dst v =
      deepCloneImpl bcFnCloner src depth visited dst v := by
  induction depth generalizing visited dst v with
  | zero => rfl
  | succ depth ih =>
    have hlist : ∀ (p : Nat) (es : List Value) (dst : Arrays), (∀ e ∈ es, e.isData = true) →
        cloneList (cloneForThreadImpl bcFnCloner fnCloner src depth (p :: visited)) dst es =
          cloneList (deepCloneImpl bcFnCloner src depth (p :: visited)) dst es := by
      intro p es
      induction es with
      | nil => exact fun _ _ => rfl
      | cons e es ihes =>
        intro dst hes
        simp only [cloneList]
        rw [ih _ dst (hes e List.mem_cons_self),
          ihes _ fun e he => hes e (List.mem_cons_of_mem _ he)]
    cases v with
    | array p =>
      cases hes : src[p]? with
      | none => simp only [cloneForThreadImpl, deepCloneImpl, hes]
      | some es =>
        simp only [cloneForThreadImpl, deepCloneImpl, hes]
        rw [hlist p es dst (hdata es (List.mem_of_getElem? hes))]
    | function p => cases hv
    | bytecodeFn p => cases hv
    | _ => rfl

end Clones

/-! ## What a clone is -/

/-- A store of arrays of data. -/
structure DataHeap where
  arrays : Arrays
  bounded : Bounded Value.ref arrays
  data : DataOnly arrays

/-- A value in a store. -/
structure DataHeap.Datum (h : DataHeap) where
  value : Value
  data : value.isData = true
  bounded : ∀ q, value.ref = some q → q < h.arrays.length

/-- `r` in the store `after` is a clone of `v` in the store `before`. -/
structure CloneOf (before : Arrays) (v : Value) (after : Arrays) (r : Value) : Prop where
  returns : Clones before [] before v after r
  /- The arrays that were there are as they were. -/
  kept : ∀ q, q < before.length → after[q]? = before[q]?
  disjoint : ∀ q, Visible Value.ref after v q → ¬ Visible Value.ref after r q
  /- A program that has any values of the store before, but not the clone, does not change
  an array of the clone, whatever it does. -/
  unseen : ∀ held, v ∈ held → (∀ u ∈ held, ∀ q, u.ref = some q → q < before.length) →
    ∀ s, Holder.Runs Value.ref ⟨after, held⟩ s → ∀ q, Visible Value.ref after r q →
      s.cells[q]? = after[q]?
  /- Nor does one that has the clone change an array from before. -/
  unseen' : ∀ s, Holder.Runs Value.ref ⟨after, [r]⟩ s → ∀ q, q < before.length →
    s.cells[q]? = before[q]?
  shape : (∀ p, Visible Value.ref before v p →
      ¬ Relation.TransGen (Child Value.ref before) p p) →
    ∃ t, Shape Value.ref before v t ∧ Shape Value.ref after r t

section CloneOf

variable {h : DataHeap} {after : Arrays} {r : Value}

theorem Fresh.kept {before : Arrays} {vs : List Value} (hfresh : Fresh before after vs) {q : Nat}
    (hq : q < before.length) : after[q]? = before[q]? := by
  obtain ⟨more, rfl⟩ := hfresh.grows
  exact List.getElem?_append_left hq

/-- The arrays of a clone are new. -/
theorem Fresh.visible {before : Arrays} (hfresh : Fresh before after [r]) {q : Nat}
    (hq : Visible Value.ref after r q) : before.length ≤ q ∧ q < after.length := by
  refine hq.within (fun q => before.length ≤ q ∧ q < after.length) ?_ ?_
  · exact (hfresh.roots r List.mem_cons_self).2
  · exact fun p es hp hes e he => (hfresh.cells p es hp.1 hes e he).2

/-- The arrays of a value from before are old. -/
theorem Fresh.visible_old (hfresh : Fresh h.arrays after [r]) {v : Value}
    (hv : ∀ q, v.ref = some q → q < h.arrays.length) {q : Nat}
    (hq : Visible Value.ref after v q) : q < h.arrays.length := by
  refine hq.within (fun q => q < h.arrays.length) hv ?_
  intro p es hp hes
  rw [hfresh.kept hp] at hes
  exact h.bounded p es hes

/-- A program without the clone is outside of it. -/
theorem Fresh.outside_new (hfresh : Fresh h.arrays after [r]) {held : List Value}
    (hheld : ∀ u ∈ held, ∀ q, u.ref = some q → q < h.arrays.length) :
    Holder.Outside Value.ref (fun q => h.arrays.length ≤ q ∧ q < after.length) after
      ⟨after, held⟩ where
  exist _ hp := hp.2
  same _ _ := rfl
  held u hu p hp := by
    have hlt := hheld u hu p hp
    exact ⟨Nat.lt_of_lt_of_le hlt hfresh.length_le, fun hf => absurd hf.1 (Nat.not_le.mpr hlt)⟩
  closed := by
    intro p es hp hes e he q hq
    have hp' : p < h.arrays.length := by
      have hlt := (List.getElem?_eq_some_iff.mp hes).1
      exact Nat.lt_of_not_le fun hle => hp ⟨hle, hlt⟩
    have hlt : q < h.arrays.length :=
      h.bounded p es ((hfresh.kept hp').symm.trans hes) e he q hq
    exact ⟨Nat.lt_of_lt_of_le hlt hfresh.length_le, fun hf => absurd hf.1 (Nat.not_le.mpr hlt)⟩

/-- A program with the clone only is outside of the arrays from before. -/
theorem Fresh.outside_old {before : Arrays} (hfresh : Fresh before after [r]) :
    Holder.Outside Value.ref (fun q => q < before.length) before ⟨after, [r]⟩ where
  exist _ hp := Nat.lt_of_lt_of_le hp hfresh.length_le
  same _ hp := hfresh.kept hp
  held u hu p hp := by
    obtain ⟨hle, hlt⟩ := (hfresh.roots u hu).2 p hp
    exact ⟨hlt, Nat.not_lt.mpr hle⟩
  closed p es hp hes e he q hq := by
    obtain ⟨hle, hlt⟩ := (hfresh.cells p es (Nat.le_of_not_lt hp) hes e he).2 q hq
    exact ⟨hlt, Nat.not_lt.mpr hle⟩

/-- `deep_clone` makes a clone. -/
theorem deepClone_cloneOf (bcFnCloner : Nat → Value) (v : h.Datum) :
    CloneOf h.arrays v.value (deepClone bcFnCloner h.arrays v.value).1
      (deepClone bcFnCloner h.arrays v.value).2 := by
  obtain ⟨hfresh, hshape⟩ :=
    deepClone_spec bcFnCloner h.bounded h.data v.data v.bounded
  exact {
    returns := deepCloneImpl_clones h.bounded h.data _ List.nodup_nil nofun (Nat.lt_succ_self _)
      h.arrays v.data v.bounded
    kept := fun q hq => hfresh.kept hq
    disjoint := fun q hv hr =>
      absurd (hfresh.visible_old v.bounded hv) (Nat.not_lt.mpr (hfresh.visible hr).1)
    unseen := fun held _ hheld s hrun q hq =>
      hrun.frame (hfresh.outside_new hheld) q (hfresh.visible hq)
    unseen' := fun s hrun => hrun.frame hfresh.outside_old
    shape := by
      intro hacyclic
      obtain ⟨t, ht⟩ := Shape.of_acyclic h.bounded v.bounded hacyclic
      exact ⟨t, ht, hshape t ht⟩ }

/-- Both functions make a clone of any value of any store of data. -/
theorem clones_of_data (bcFnCloner fnCloner : Nat → Value) (h : DataHeap) (v : h.Datum) :
    CloneOf h.arrays v.value (deepClone bcFnCloner h.arrays v.value).1
        (deepClone bcFnCloner h.arrays v.value).2 ∧
      CloneOf h.arrays v.value (cloneForThread bcFnCloner fnCloner h.arrays v.value).1
        (cloneForThread bcFnCloner fnCloner h.arrays v.value).2 := by
  have heq : cloneForThread bcFnCloner fnCloner h.arrays v.value =
      deepClone bcFnCloner h.arrays v.value := cloneForThreadImpl_eq h.data _ _ _ v.data
  rw [heq]
  exact ⟨deepClone_cloneOf bcFnCloner v, deepClone_cloneOf bcFnCloner v⟩

end CloneOf

end Clone

end Look
