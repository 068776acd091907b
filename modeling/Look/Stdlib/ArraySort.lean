/-
`array::sort` with a callback.

The array that is sorted is a copy, and `buf` is as long as it.  The callback may do anything that a
program does; what it must leave alone is the list that was passed in.  An index outside of an array
is an outcome of its own.
-/
import Look.Lib.Loop
import Look.Lib.Merging
import Look.Value

namespace Look

namespace ArraySort

open Exec Merging

/-- What ends a sort early. -/
inductive Stop (ε : Type) where
  | thrown (e : ε)
  | outOfRange
deriving DecidableEq

/-! ## Slices -/

section Slices

variable {α : Type} {l : List α} {a b c : Nat} {x : α}

/-- The elements from `a` to before `b`. -/
def slice (l : List α) (a b : Nat) : List α := (l.take b).drop a

theorem slice_nil (h : b ≤ a) : slice l a b = [] :=
  List.drop_eq_nil_of_le (Nat.le_trans (List.length_take_le b l) h)

theorem length_slice (h : b ≤ l.length) : (slice l a b).length = b - a := by
  rw [slice, List.length_drop, List.length_take, Nat.min_eq_left h]

theorem slice_cons (hx : l[a]? = some x) (h : a < b) :
    slice l a b = x :: slice l (a + 1) b := by
  have hget : (l.take b)[a]? = some x := by rw [List.getElem?_take_of_lt h, hx]
  obtain ⟨hlt, rfl⟩ := List.getElem?_eq_some_iff.mp hget
  exact List.drop_eq_getElem_cons hlt

/-- An element written behind a slice. -/
theorem slice_set (hab : a ≤ b) (hb : b < l.length) :
    slice (l.set b x) a (b + 1) = slice l a b ++ [x] := by
  have htake : (l.set b x).take (b + 1) = l.take b ++ [x] := by
    rw [List.take_add_one, List.take_set_of_le (Nat.le_refl b), List.getElem?_set_self hb]
    rfl
  rw [slice, htake, List.drop_append_of_le_length (by rw [List.length_take]; omega)]
  rfl

theorem slice_append (hab : a ≤ b) (hbc : b ≤ c) (hb : b ≤ l.length) :
    slice l a b ++ slice l b c = slice l a c := by
  have htake : l.take c = l.take b ++ slice l b c := by
    conv_lhs => rw [← List.take_append_drop b (l.take c)]
    rw [List.take_take, Nat.min_eq_left hbc, slice]
  conv_rhs => rw [slice, htake, List.drop_append_of_le_length (by rw [List.length_take]; omega)]
  rfl

theorem slice_length : slice l a l.length = l.drop a := by
  rw [slice, List.take_length]

end Slices

/-! ## The algorithm -/

variable {σ ε : Type}

def read (v : List Value) (i : Nat) : Exec σ (Stop ε) Value :=
  match v[i]? with
  | some x => pure x
  | none => throw .outOfRange

def write (v : List Value) (i : Nat) (x : Value) : Exec σ (Stop ε) (List Value) :=
  if i < v.length then pure (v.set i x) else throw .outOfRange

theorem read_eq {v : List Value} {i : Nat} {x : Value} (h : v[i]? = some x) :
    (read v i : Exec σ (Stop ε) Value) = pure x := by
  rw [read, h]

theorem write_eq {v : List Value} {i : Nat} (h : i < v.length) (x : Value) :
    (write v i x : Exec σ (Stop ε) (List Value)) = pure (v.set i x) := if_pos h

/-- The indices of a merge, and the buffer. -/
structure Cursor where
  i : Nat
  j : Nat
  k : Nat
  buf : List Value

/-- `buf[k++] = v[i++]`. -/
def takeLeft (v : List Value) (c : Cursor) : Exec σ (Stop ε) (Turn Cursor Cursor) := do
  let buf ← write c.buf c.k (← read v c.i)
  pure (.next { c with i := c.i + 1, k := c.k + 1, buf := buf })

/-- `buf[k++] = v[j++]`. -/
def takeRight (v : List Value) (c : Cursor) : Exec σ (Stop ε) (Turn Cursor Cursor) := do
  let buf ← write c.buf c.k (← read v c.j)
  pure (.next { c with j := c.j + 1, k := c.k + 1, buf := buf })

def leftTurn (v : List Value) (mid : Nat) (c : Cursor) : Exec σ (Stop ε) (Turn Cursor Cursor) :=
  if c.i < mid then takeLeft v c else pure (.done c)

def rightTurn (v : List Value) (hi : Nat) (c : Cursor) : Exec σ (Stop ε) (Turn Cursor Cursor) :=
  if c.j < hi then takeRight v c else pure (.done c)

/-- `std::copy` of the merged runs back to the array. -/
def copyTurn (buf : List Value) (hi : Nat) (c : Nat × List Value) :
    Exec σ (Stop ε) (Turn (Nat × List Value) (List Value)) :=
  if c.1 < hi then do
    let v ← write c.2 c.1 (← read buf c.1)
    pure (.next (c.1 + 1, v))
  else pure (.done c.2)

section Algorithm

variable [DoubleOps] (invoke : Value → Value → Exec σ ε Value)

/-- `less`. -/
def less (a b : Value) : Exec σ (Stop ε) Bool := fun s =>
  match invoke a b s with
  | .ok v s' => .ok (v.toInt < 0) s'
  | .error e s' => .error (.thrown e) s'
  | .timeout => .timeout

def mergeTurn (v : List Value) (mid hi : Nat) (c : Cursor) :
    Exec σ (Stop ε) (Turn Cursor Cursor) :=
  if c.i < mid ∧ c.j < hi then do
    if ← less invoke (← read v c.j) (← read v c.i) then takeRight v c else takeLeft v c
  else pure (.done c)

/-- The three loops over two neighbouring runs. -/
def mergeRuns (v : List Value) (lo mid hi : Nat) (buf : List Value) :
    Exec σ (Stop ε) (List Value) := do
  let c ← iterate (mergeTurn invoke v mid hi) (v.length + 1) ⟨lo, mid, lo, buf⟩
  let c ← iterate (leftTurn v mid) (v.length + 1) c
  let c ← iterate (rightTurn v hi) (v.length + 1) c
  pure c.buf

/-- The loop over the pairs of runs. -/
structure Pass where
  lo : Nat
  v : List Value
  buf : List Value

def passTurn (n w : Nat) (p : Pass) : Exec σ (Stop ε) (Turn Pass Pass) :=
  if p.lo + w < n then do
    let hi := min (p.lo + 2 * w) n
    let buf ← mergeRuns invoke p.v p.lo (p.lo + w) hi p.buf
    let v ← iterate (copyTurn buf hi) (n + 1) (p.lo, p.v)
    pure (.next ⟨p.lo + 2 * w, v, buf⟩)
  else pure (.done p)

/-- The loop over the widths. -/
def widthTurn (n : Nat) (c : Nat × List Value × List Value) :
    Exec σ (Stop ε) (Turn (Nat × List Value × List Value) (List Value)) :=
  if c.1 < n then do
    let p ← iterate (passTurn invoke n c.1) (n + 1) ⟨0, c.2.1, c.2.2⟩
    pure (.next (2 * c.1, p.v, p.buf))
  else pure (.done c.2.1)

/-- `array::sort` with a callback. -/
def sort (input : σ → List Value) : Exec σ (Stop ε) (List Value) := do
  let v ← gets input
  if 1 < v.length then
    iterate (widthTurn invoke v.length) (v.length + 1) (1, v, List.replicate v.length .none)
  else pure v

end Algorithm

/-! ## What is kept -/

/-- The list that was passed in stays as it is. -/
def keeps (input : σ → List Value) : Moves σ ε where
  rel s s' := input s' = input s
  err _ s s' := input s' = input s
  refl _ := rfl
  trans h h' := h'.trans h
  absorb h h' := h'.trans h

/-- The same for a sort; the only exceptions are those of the callback. -/
def sorting (input : σ → List Value) : Moves σ (Stop ε) where
  rel s s' := input s' = input s
  err e s s' := e ≠ .outOfRange ∧ input s' = input s
  refl _ := rfl
  trans h h' := h'.trans h
  absorb h h' := ⟨h'.1, h'.2.trans h⟩

section Placed

variable {input : σ → List Value} {s : σ} {v : List Value}

/-- Where a merge stands: `buf` holds a merge of what has been taken, which goes on with what is
left. -/
structure Placed (P : Value → Value → Bool → Prop) (v : List Value) (lo mid hi : Nat) (c : Cursor) :
    Prop where
  left : lo ≤ c.i ∧ c.i ≤ mid
  right : mid ≤ c.j ∧ c.j ≤ hi
  index : c.k + mid = c.i + c.j
  size : c.buf.length = v.length
  within : hi ≤ v.length
  merged : ∀ tail, Merges P (slice v c.i mid) (slice v c.j hi) tail →
    Merges P (slice v lo mid) (slice v mid hi) (slice c.buf lo c.k ++ tail)

variable {P : Value → Value → Bool → Prop} {lo mid hi : Nat} {c : Cursor}

theorem Placed.takeLeft (h : Placed P v lo mid hi c) (hi' : c.i < mid) {x : Value}
    (hx : v[c.i]? = some x) (hP : ∀ y ∈ (slice v c.j hi).head?, P y x false) :
    Finishes (sorting (ε := ε) input) (takeLeft v c) s fun t _ => ∃ c', t = .next c' ∧
      c'.i = c.i + 1 ∧ c'.j = c.j ∧ Placed P v lo mid hi c' := by
  obtain ⟨hl, hr, hk, hsize, hlen, hm⟩ := h
  have hbound : c.k < c.buf.length := by omega
  rw [ArraySort.takeLeft, read_eq hx]
  change Finishes _ (write c.buf c.k x >>= _) s _
  rw [write_eq hbound]
  refine Finishes.pure ⟨_, rfl, rfl, rfl, ⟨Nat.le_succ_of_le hl.1, hi'⟩, hr, ?_, ?_, hlen, fun tail ht => ?_⟩
  · change c.k + 1 + mid = c.i + 1 + c.j
    omega
  · exact (List.length_set).trans hsize
  · have hmerged := hm (x :: tail) (by rw [slice_cons hx hi']; exact .left hP ht)
    rw [slice_set (by omega) hbound, List.append_assoc]
    exact hmerged

theorem Placed.takeRight (h : Placed P v lo mid hi c) (hj : c.j < hi) {y : Value}
    (hy : v[c.j]? = some y) (hP : ∀ x ∈ (slice v c.i mid).head?, P y x true) :
    Finishes (sorting (ε := ε) input) (takeRight v c) s fun t _ => ∃ c', t = .next c' ∧
      c'.i = c.i ∧ c'.j = c.j + 1 ∧ Placed P v lo mid hi c' := by
  obtain ⟨hl, hr, hk, hsize, hlen, hm⟩ := h
  have hbound : c.k < c.buf.length := by omega
  rw [ArraySort.takeRight, read_eq hy]
  change Finishes _ (write c.buf c.k y >>= _) s _
  rw [write_eq hbound]
  refine Finishes.pure ⟨_, rfl, rfl, rfl, hl, ⟨Nat.le_succ_of_le hr.1, hj⟩, ?_, ?_, hlen, fun tail ht => ?_⟩
  · change c.k + 1 + mid = c.i + (c.j + 1)
    omega
  · exact (List.length_set).trans hsize
  · have hmerged := hm (y :: tail) (by rw [slice_cons hy hj]; exact .right hP ht)
    rw [slice_set (by omega) hbound, List.append_assoc]
    exact hmerged

/-- How much of the two runs is left. -/
def Cursor.rest (mid hi : Nat) (c : Cursor) : Nat := (mid - c.i) + (hi - c.j)

theorem leftTurn_finishes (h : Placed P v lo mid hi c) (hend : c.i = mid ∨ c.j = hi) :
    Finishes (sorting (ε := ε) input) (leftTurn v mid c) s fun t _ =>
      t.Says (fun c' => c'.rest mid hi < c.rest mid hi ∧ (c'.i = mid ∨ c'.j = hi) ∧
          Placed P v lo mid hi c')
        fun c' => c'.i = mid ∧ Placed P v lo mid hi c' := by
  have hbounds := And.intro h.left (And.intro h.right h.within)
  rw [leftTurn]
  refine Finishes.ite (fun hgo => ?_) fun hstop => Finishes.pure ⟨by omega, h⟩
  have hj : c.j = hi := hend.resolve_left (Nat.ne_of_lt hgo)
  refine (h.takeLeft hgo (List.getElem?_eq_getElem (by omega)) ?_).mono ?_
  · rw [hj, slice_nil (Nat.le_refl hi)]
    exact nofun
  · rintro t s' - ⟨c', rfl, hci, hcj, hc'⟩
    refine ⟨?_, Or.inr (hcj.trans hj), hc'⟩
    rw [Cursor.rest, Cursor.rest]
    omega

theorem rightTurn_finishes (h : Placed P v lo mid hi c) (hend : c.i = mid) :
    Finishes (sorting (ε := ε) input) (rightTurn v hi c) s fun t _ =>
      t.Says (fun c' => c'.rest mid hi < c.rest mid hi ∧ c'.i = mid ∧ Placed P v lo mid hi c')
        fun c' => c'.i = mid ∧ c'.j = hi ∧ Placed P v lo mid hi c' := by
  have hbounds := And.intro h.left (And.intro h.right h.within)
  rw [rightTurn]
  refine Finishes.ite (fun hgo => ?_) fun hstop => Finishes.pure ⟨hend, by omega, h⟩
  refine (h.takeRight hgo (List.getElem?_eq_getElem (by omega)) ?_).mono ?_
  · rw [hend, slice_nil (Nat.le_refl mid)]
    exact nofun
  · rintro t s' - ⟨c', rfl, hci, hcj, hc'⟩
    refine ⟨?_, hci.trans hend, hc'⟩
    rw [Cursor.rest, Cursor.rest]
    omega

end Placed

/-! ## The loops of a sort -/

section Loops

variable [DoubleOps] (invoke : Value → Value → Exec σ ε Value)

/-- Whatever the callback does, it ends, and the list stays as it is. -/
def Harmless (input : σ → List Value) : Prop :=
  ∀ a b s, Finishes (keeps input) (invoke a b) s fun _ _ => True

/-- What the callback may have answered about two elements of `l`. -/
def Answered (l : List Value) (y x : Value) (r : Bool) : Prop :=
  y ∈ l ∧ x ∈ l ∧ ∃ s v s', invoke y x s = .ok v s' ∧ r = decide (v.toInt < 0)

variable {invoke} {input : σ → List Value} {s : σ} {l v : List Value} {lo mid hi : Nat} {c : Cursor}

theorem less_finishes (h : Harmless invoke input) {y x : Value} (hy : y ∈ l) (hx : x ∈ l) (s : σ) :
    Finishes (sorting input) (less (ε := ε) invoke y x) s fun r _ => Answered invoke l y x r := by
  have hcall := h y x s
  unfold Finishes at hcall ⊢
  rw [less]
  cases hrun : invoke y x s with
  | ok w s' =>
    rw [hrun] at hcall
    exact ⟨hcall.1, hy, hx, s, w, s', hrun, rfl⟩
  | error e s' =>
    rw [hrun] at hcall
    exact ⟨nofun, hcall⟩
  | timeout =>
    rw [hrun] at hcall
    exact hcall

theorem mergeTurn_finishes (hcall : Harmless invoke input) (hsub : ∀ x ∈ v, x ∈ l)
    (h : Placed (Answered invoke l) v lo mid hi c) :
    Finishes (sorting input) (mergeTurn invoke v mid hi c) s fun t _ =>
      t.Says (fun c' => c'.rest mid hi < c.rest mid hi ∧ Placed (Answered invoke l) v lo mid hi c')
        fun c' => (c'.i = mid ∨ c'.j = hi) ∧ Placed (Answered invoke l) v lo mid hi c' := by
  have hbounds := And.intro h.left (And.intro h.right h.within)
  rw [mergeTurn]
  refine Finishes.ite (fun hgo => ?_) fun hstop => ?_
  · obtain ⟨hi', hj⟩ := hgo
    have hx : v[c.i]? = some v[c.i] := List.getElem?_eq_getElem (by omega)
    have hy : v[c.j]? = some v[c.j] := List.getElem?_eq_getElem (by omega)
    rw [read_eq hx, read_eq hy]
    change Finishes _ (less invoke v[c.j] v[c.i] >>= _) s _
    refine Finishes.bind (less_finishes hcall (hsub _ (List.getElem_mem _))
      (hsub _ (List.getElem_mem _)) s) fun r s' _ hr => ?_
    cases r with
    | true =>
      refine (h.takeRight hj hy ?_).mono ?_
      · rw [slice_cons hx hi']
        rintro x ⟨⟩
        exact hr
      · rintro t s'' - ⟨c', rfl, hci, hcj, hc'⟩
        refine ⟨?_, hc'⟩
        rw [Cursor.rest, Cursor.rest]
        omega
    | false =>
      refine (h.takeLeft hi' hx ?_).mono ?_
      · rw [slice_cons hy hj]
        rintro y ⟨⟩
        exact hr
      · rintro t s'' - ⟨c', rfl, hci, hcj, hc'⟩
        refine ⟨?_, hc'⟩
        rw [Cursor.rest, Cursor.rest]
        omega
  · exact Finishes.pure ⟨by omega, h⟩

/-- The three loops leave a merge of the two runs in the buffer. -/
theorem mergeRuns_finishes (hcall : Harmless invoke input) (hsub : ∀ x ∈ v, x ∈ l)
    (hlo : lo ≤ mid) (hmid : mid ≤ hi) (hhi : hi ≤ v.length) {buf : List Value}
    (hbuf : buf.length = v.length) :
    Finishes (sorting input) (mergeRuns invoke v lo mid hi buf) s fun buf' _ =>
      buf'.length = v.length ∧
        Merges (Answered invoke l) (slice v lo mid) (slice v mid hi) (slice buf' lo hi) := by
  have hstart : Placed (Answered invoke l) v lo mid hi ⟨lo, mid, lo, buf⟩ := by
    refine ⟨⟨Nat.le_refl lo, hlo⟩, ⟨Nat.le_refl mid, hmid⟩, rfl, hbuf, hhi, fun tail ht => ?_⟩
    rwa [slice_nil (Nat.le_refl lo), List.nil_append]
  have hfuel : ∀ {c : Cursor}, Placed (Answered invoke l) v lo mid hi c →
      c.rest mid hi < v.length + 1 := by
    rintro c ⟨hl, hr, -, -, -, -⟩
    rw [Cursor.rest]
    omega
  rw [mergeRuns]
  refine (Finishes.turns (Q := fun c _ => (c.i = mid ∨ c.j = hi) ∧ Placed (Answered invoke l) v lo mid hi c)
    (fun c _ => Placed (Answered invoke l) v lo mid hi c) (fun c _ => c.rest mid hi)
    (fun c s h => mergeTurn_finishes hcall hsub h) hstart (hfuel hstart)).bind ?_
  rintro c s - ⟨hend, h⟩
  refine (Finishes.turns (Q := fun c _ => c.i = mid ∧ Placed (Answered invoke l) v lo mid hi c)
    (fun c _ => (c.i = mid ∨ c.j = hi) ∧ Placed (Answered invoke l) v lo mid hi c)
    (fun c _ => c.rest mid hi) (fun c s h => leftTurn_finishes h.2 h.1) ⟨hend, h⟩ (hfuel h)).bind ?_
  rintro c s - ⟨hend, h⟩
  refine (Finishes.turns (Q := fun c _ => c.i = mid ∧ c.j = hi ∧ Placed (Answered invoke l) v lo mid hi c)
    (fun c _ => c.i = mid ∧ Placed (Answered invoke l) v lo mid hi c)
    (fun c _ => c.rest mid hi) (fun c s h => rightTurn_finishes h.2 h.1) ⟨hend, h⟩ (hfuel h)).bind ?_
  rintro c s - ⟨hendi, hendj, h⟩
  have hk : c.k = hi := by
    have hindex := h.index
    omega
  have hmerged := h.merged [] (by
    rw [hendi, hendj, slice_nil (Nat.le_refl mid), slice_nil (Nat.le_refl hi)]
    exact .nil)
  rw [hk, List.append_nil] at hmerged
  exact Finishes.pure ⟨h.size, hmerged⟩

/-- The elements of a slice have been replaced. -/
def patch (v buf : List Value) (lo hi : Nat) : List Value := v.take lo ++ (slice buf lo hi ++ v.drop hi)

omit [DoubleOps] in
theorem patch_set {k : Nat} {buf : List Value} {x : Value} (hx : buf[k]? = some x) (hlo : lo ≤ k)
    (hk : k < v.length) (hbuf : buf.length = v.length) :
    (patch v buf lo k).set k x = patch v buf lo (k + 1) := by
  have hslice : slice buf lo (k + 1) = slice buf lo k ++ [x] := by
    have hset := slice_set (x := x) hlo (Nat.lt_of_lt_of_eq hk hbuf.symm)
    have hself : buf.set k x = buf := by
      obtain ⟨h, rfl⟩ := List.getElem?_eq_some_iff.mp hx
      exact List.set_getElem_self h
    rwa [hself] at hset
  have hfront : (v.take lo).length = lo := by
    rw [List.length_take]
    omega
  have hlen : (slice buf lo k).length = k - lo := length_slice (by omega)
  rw [patch, patch, hslice, List.set_append_right _ _ (by omega), hfront,
    List.set_append_right _ _ (by omega), hlen, Nat.sub_self, List.drop_eq_getElem_cons hk,
    List.set_cons_zero, List.append_assoc]
  rfl

omit [DoubleOps] in
theorem length_patch {buf : List Value} (hlo : lo ≤ hi) (hhi : hi ≤ v.length)
    (hbuf : buf.length = v.length) : (patch v buf lo hi).length = v.length := by
  rw [patch, List.length_append, List.length_append, length_slice (by omega), List.length_take,
    List.length_drop]
  omega

omit [DoubleOps] in
theorem copyTurn_finishes {buf w : List Value} {k : Nat} (hhi : hi ≤ v.length)
    (hbuf : buf.length = v.length) (hk : lo ≤ k ∧ k ≤ hi) (hw : w = patch v buf lo k) :
    Finishes (sorting (ε := ε) input) (copyTurn buf hi (k, w)) s fun t _ =>
      t.Says (fun c => hi - c.1 < hi - k ∧ (lo ≤ c.1 ∧ c.1 ≤ hi) ∧ c.2 = patch v buf lo c.1)
        fun w => w = patch v buf lo hi := by
  subst hw
  rw [copyTurn]
  refine Finishes.ite (fun hgo => ?_) fun hstop => ?_
  · have hgo : k < hi := hgo
    have hx : buf[k]? = some buf[k] := List.getElem?_eq_getElem (by omega)
    have hlen : (patch v buf lo k).length = v.length := length_patch hk.1 (by omega) hbuf
    rw [read_eq hx]
    change Finishes _ (write (patch v buf lo k) k buf[k] >>= _) s _
    rw [write_eq (by omega)]
    refine Finishes.pure ⟨?_, ⟨Nat.le_succ_of_le hk.1, hgo⟩, patch_set hx hk.1 (by omega) hbuf⟩
    change hi - (k + 1) < hi - k
    omega
  · have hend : k = hi := Nat.le_antisymm hk.2 (Nat.not_lt.mp hstop)
    rw [hend]
    exact Finishes.pure rfl

omit [DoubleOps] in
theorem copy_finishes {buf : List Value} (hlo : lo ≤ hi) (hhi : hi ≤ v.length)
    (hbuf : buf.length = v.length) :
    Finishes (sorting (ε := ε) input) (iterate (copyTurn buf hi) (v.length + 1) (lo, v)) s
      fun w _ => w = patch v buf lo hi := by
  have hstart : v = patch v buf lo lo := by
    rw [patch, slice_nil (Nat.le_refl lo), List.nil_append, List.take_append_drop]
  refine Finishes.turns (fun c _ => (lo ≤ c.1 ∧ c.1 ≤ hi) ∧ c.2 = patch v buf lo c.1)
    (fun c _ => hi - c.1) (fun c s h => copyTurn_finishes hhi hbuf h.1 h.2)
    ⟨⟨Nat.le_refl lo, hlo⟩, hstart⟩ ?_
  change hi - lo < v.length + 1
  omega

/-- What holds of a pass over `v`. -/
structure Passing (P : Value → Value → Bool → Prop) (w : Nat) (v l : List Value) (p : Pass) :
    Prop where
  size : p.v.length = v.length
  buffer : p.buf.length = v.length
  perm : p.v.Perm l
  passed : ∀ tail, Passes P w (p.v.drop p.lo) tail → Passes P w v (p.v.take p.lo ++ tail)

theorem passTurn_finishes (hcall : Harmless invoke input) {w : Nat} (hw : 0 < w) {p : Pass}
    (h : Passing (Answered invoke l) w v l p) :
    Finishes (sorting input) (passTurn invoke v.length w p) s fun t _ =>
      t.Says (fun p' => v.length - p'.lo < v.length - p.lo ∧ Passing (Answered invoke l) w v l p')
        fun p' => p'.buf.length = v.length ∧ p'.v.Perm l ∧ Passes (Answered invoke l) w v p'.v := by
  obtain ⟨hsize, hbuffer, hperm, hpassed⟩ := h
  rw [passTurn]
  refine Finishes.ite (fun hgo => ?_) fun hstop => ?_
  · obtain ⟨hi, hhi⟩ : ∃ hi, hi = min (p.lo + 2 * w) v.length := ⟨_, rfl⟩
    rw [← hhi]
    have hmem : ∀ x ∈ p.v, x ∈ l := fun x hx => hperm.mem_iff.mp hx
    have hlo : p.lo ≤ p.lo + w := Nat.le_add_right _ _
    have hmid : p.lo + w ≤ hi := by omega
    have hlen : hi ≤ p.v.length := by omega
    have hmerge := mergeRuns_finishes (s := s) hcall hmem hlo hmid hlen
      (hbuffer.trans hsize.symm)
    refine hmerge.bind ?_
    rintro buf s' - ⟨hbuf, hmerged⟩
    have hcopy : Finishes (sorting input) (iterate (copyTurn buf hi) (p.v.length + 1) (p.lo, p.v))
        s' fun v _ => v = patch p.v buf p.lo hi := copy_finishes (ε := ε) (by omega) hlen hbuf
    rw [hsize] at hcopy
    refine hcopy.bind ?_
    rintro v' s'' - rfl
    have hruns : slice p.v p.lo (p.lo + w) ++ slice p.v (p.lo + w) hi = slice p.v p.lo hi :=
      slice_append (by omega) (by omega) (by omega)
    have hfront : (p.v.take p.lo ++ slice buf p.lo hi).length = hi := by
      rw [List.length_append, List.length_take, length_slice (by omega)]
      omega
    have hrest : p.v.drop p.lo = slice p.v p.lo hi ++ p.v.drop hi := by
      rw [← slice_length, ← slice_length, slice_append (by omega) (by omega) (by omega)]
    refine Finishes.pure ⟨?_, ?_, hbuf.trans hsize, ?_, fun tail ht => ?_⟩
    · change v.length - (p.lo + 2 * w) < v.length - p.lo
      omega
    · exact (length_patch (by omega) (by omega) hbuf).trans hsize
    · refine List.Perm.trans ?_ hperm
      have hslice : (slice buf p.lo hi).Perm (slice p.v p.lo hi) := hruns ▸ hmerged.perm
      conv_rhs => rw [← List.take_append_drop p.lo p.v, hrest]
      exact (hslice.append_right _).append_left _
    · have hdrop : (patch p.v buf p.lo hi).drop (p.lo + 2 * w) = p.v.drop hi := by
        rw [patch, ← List.append_assoc]
        rcases Nat.lt_or_ge v.length (p.lo + 2 * w) with hlong | hfit
        · rw [List.drop_eq_nil_of_le, List.drop_eq_nil_of_le (by omega)]
          rw [List.length_append, hfront, List.length_drop]
          omega
        · rw [List.drop_left' (by omega)]
      have htake : (patch p.v buf p.lo hi).take (p.lo + 2 * w) =
          p.v.take p.lo ++ slice buf p.lo hi := by
        rw [patch, ← List.append_assoc]
        rcases Nat.lt_or_ge v.length (p.lo + 2 * w) with hlong | hfit
        · rw [List.drop_eq_nil_of_le (by omega), List.append_nil, List.take_of_length_le (by omega)]
        · rw [List.take_left' (by omega)]
      have ht' : Passes (Answered invoke l) w (p.v.drop hi) tail := hdrop ▸ ht
      have hpair := hpassed (slice buf p.lo hi ++ tail) (by
        rw [hrest, ← hruns, List.append_assoc]
        refine .pair ?_ ?_ ?_ ?_ hmerged ht'
        · rw [length_slice (by omega)]
          omega
        · rw [length_slice (by omega)]
          omega
        · refine List.ne_nil_of_length_pos ?_
          rw [length_slice (by omega)]
          omega
        · rw [length_slice (by omega)]
          intro hshort
          exact List.drop_eq_nil_of_le (by omega))
      change Passes _ w v ((patch p.v buf p.lo hi).take (p.lo + 2 * w) ++ tail)
      rwa [htake, List.append_assoc]
  · have hlast := hpassed (p.v.drop p.lo) (.last (by rw [List.length_drop]; omega))
    rw [List.take_append_drop] at hlast
    exact Finishes.pure ⟨hbuffer, hperm, hlast⟩

theorem widthTurn_finishes (hcall : Harmless invoke input) {w : Nat} {buf : List Value}
    (hw : 0 < w) (hbuf : buf.length = v.length) (hperm : v.Perm l) :
    Finishes (sorting input) (widthTurn invoke v.length (w, v, buf)) s fun t _ =>
      t.Says (fun c => v.length - c.1 < v.length - w ∧ c.1 = 2 * w ∧ c.2.2.length = v.length ∧
          c.2.1.Perm l ∧ Passes (Answered invoke l) w v c.2.1)
        fun r => r = v ∧ v.length ≤ w := by
  rw [widthTurn]
  refine Finishes.ite (fun hgo => ?_) fun hstop => Finishes.pure ⟨rfl, Nat.not_lt.mp hstop⟩
  have hgo : w < v.length := hgo
  have hstart : Passing (Answered invoke l) w v l ⟨0, v, buf⟩ :=
    ⟨rfl, hbuf, hperm, fun tail ht => ht⟩
  refine (Finishes.turns (Q := fun p _ => p.buf.length = v.length ∧ p.v.Perm l ∧
      Passes (Answered invoke l) w v p.v) (fun p _ => Passing (Answered invoke l) w v l p)
    (fun p _ => v.length - p.lo) (fun p s h => passTurn_finishes hcall hw h) hstart
    (Nat.lt_succ_of_le (Nat.sub_le _ _))).bind ?_
  rintro p s' - ⟨hbuf', hperm', hpass⟩
  refine Finishes.pure ⟨?_, rfl, hbuf', hperm', hpass⟩
  change v.length - 2 * w < v.length - w
  omega

/-- A sort ends with passes of growing widths over the list, if the callback lets it. -/
theorem sort_finishes (hcall : Harmless invoke input) (s : σ) :
    Finishes (sorting input) (sort invoke input) s fun r _ =>
      Sorts (Answered invoke (input s)) 1 (input s) r := by
  obtain ⟨l, hl⟩ : ∃ l, l = input s := ⟨_, rfl⟩
  rw [sort, ← hl]
  refine Finishes.gets_bind ?_
  rw [← hl]
  refine Finishes.ite (fun _ => ?_) fun hstop => Finishes.pure (.done (Nat.not_lt.mp hstop))
  let kept : Nat × List Value × List Value → Prop := fun c =>
    0 < c.1 ∧ c.2.1.length = l.length ∧ c.2.2.length = l.length ∧ c.2.1.Perm l ∧
      ∀ r, Sorts (Answered invoke l) c.1 c.2.1 r → Sorts (Answered invoke l) 1 l r
  refine Finishes.turns (fun c _ => kept c) (fun c _ => l.length - c.1) ?_
    ⟨Nat.one_pos, rfl, List.length_replicate, List.Perm.refl l, fun r hr => hr⟩
    (Nat.lt_succ_of_le (Nat.sub_le _ _))
  rintro ⟨w, v, buf⟩ s ⟨hw, hv, hbuf, hperm, hsorts⟩
  dsimp only at hw hv hbuf hperm hsorts
  have hturn := widthTurn_finishes (s := s) hcall hw (hbuf.trans hv.symm) hperm
  rw [hv] at hturn
  refine hturn.mono ?_
  intro t s' _ ht
  cases t with
  | next c =>
    obtain ⟨hless, hwidth, hbuf', hperm', hpass⟩ := ht
    refine ⟨hless, by omega, hperm'.length_eq, hbuf', hperm', fun r hr => ?_⟩
    exact hsorts r (.pass hpass (hwidth ▸ hr))
  | done r =>
    obtain ⟨rfl, hend⟩ := ht
    exact hsorts r (.done (by omega))

end Loops

/-! ## What a sort returns -/

section Result

variable [DoubleOps] {invoke : Value → Value → Exec σ ε Value} {input : σ → List Value}

/-- A sort ends in a permutation of the list or in an exception of the callback, it stays within its
arrays, and the list is as before.  Where the sign of what the callback returns is that of a strict
weak order on the elements, the result is sorted and elements of equal rank keep their order. -/
theorem sort_correct (hcall : Harmless invoke input) (s : σ) :
    Finishes (sorting input) (sort invoke input) s fun r _ =>
      r.Perm (input s) ∧
      ∀ (lt : Value → Value → Prop) [IsStrictWeakOrder Value lt] [DecidableRel lt],
        (∀ y ∈ input s, ∀ x ∈ input s, ∀ t v t', invoke y x t = .ok v t' →
          (v.toInt < 0 ↔ lt y x)) →
        Sorted lt r ∧ ∀ a, rank lt a r = rank lt a (input s) := by
  refine (sort_finishes hcall s).mono ?_
  intro r s' _ hsorts
  refine ⟨hsorts.perm, fun lt _ _ hlt => ?_⟩
  have hanswers : Sorts (Answers lt) 1 (input s) r := by
    refine hsorts.mono ?_
    rintro y x r ⟨hy, hx, t, v, t', hrun, rfl⟩
    exact decide_eq_true_iff.trans (hlt y hy x hx t v t' hrun)
  exact ⟨hanswers.sorted (runs_one _), hanswers.rank (runs_one _)⟩

end Result

/-- A callback that compares the numbers of two values. -/
def byNumber (a b : Value) : Exec (List Value) String Value :=
  letI := DoubleOps.host
  fun s => .ok (.int (if a.toInt < b.toInt then -1 else 1)) s

theorem sort_correct_byNumber :
    letI := DoubleOps.host
    Finishes (sorting id) (sort byNumber id) [.int 3, .int 1, .int 2] fun r _ =>
      r.Perm [.int 3, .int 1, .int 2] ∧ Sorted (fun a b => a.toInt < b.toInt) r := by
  let _ := DoubleOps.host
  have hcall : Harmless byNumber id := fun a b s => ⟨rfl, trivial⟩
  have horder : IsStrictWeakOrder Value fun a b => a.toInt < b.toInt :=
    { irrefl := fun a => Int64.lt_irrefl
      trans := fun a b c hab hbc => Int64.lt_trans hab hbc
      incomp_trans := fun a b c hab hbc => by
        simp only [Int64.not_lt] at hab hbc ⊢
        exact ⟨Int64.le_trans hbc.1 hab.1, Int64.le_trans hab.2 hbc.2⟩ }
  refine (sort_correct hcall [.int 3, .int 1, .int 2]).mono fun r s _ h => ⟨h.1, ?_⟩
  refine (h.2 (fun a b => a.toInt < b.toInt) ?_).1
  rintro y - x - t v t' ⟨⟩
  change (if y.toInt < x.toInt then (-1 : Int64) else 1) < 0 ↔ _
  split
  · exact iff_of_true (by decide) ‹_›
  · exact iff_of_false (by decide) ‹_›

end ArraySort

end Look
