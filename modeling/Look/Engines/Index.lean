/-
Index reads and writes in the two engines.

The VM executes `obj[key] op= val` as `ARRAY_GET`, the operator, `ARRAY_SET` and
a second `ARRAY_GET` for the value of the assignment.  `vmAssign` is what these
instructions compute, and `runWords_assign` says so.  The rest of the module
compares it, and `array_get`, with the functions of `Look.Interp.Index`.

The engines differ where the VM is silent and the interpreter throws (a
container that is not an array), where a key that is not a string meets an
associative array (a text for the VM, a position in the raw vector for the
interpreter), at the tag of a struct, and where the interpreter converts a list
before the operator throws.
-/
import Look.Compiler.Expr
import Look.Interp.Index
import Look.Vm.AssocMap
import Look.Vm.Straight

namespace Look

open Exec Instr AssocList

/-! ## What is compared -/

/-- The same value, or an error in both engines.  The texts of errors are not
compared. -/
def SameOutcome : Except Fault Value → Except Fault Value → Prop
  | .ok v, .ok v' => v = v'
  | .error (.error _), .error (.error _) => True
  | .error .stackExhausted, .error .stackExhausted => True
  | _, _ => False

/-- The arrays that `w` has hold the same in both worlds. -/
def SameContents (w w₁ w₂ : World) : Prop := ∀ q < w.arrays.length, w₁.array q = w₂.array q

theorem SameOutcome.refl (r : Except Fault Value) : SameOutcome r r := by
  match r with
  | .ok _ => rfl
  | .error (.error _) => trivial
  | .error .stackExhausted => trivial

/-! ## Operators -/

section Operators

variable [DoubleOps]

theorem fastArith_eq (exact : Int → Int → Int) (approx : Double → Double → Double) (x y : Value) :
    fastArith exact (Value.arith exact approx) x y = Value.arith exact approx x y := by
  unfold fastArith
  split
  · rename_i a b
    split
    · rename_i r hr
      simp [Value.arith, Value.arithCheck, Value.isFloat, Value.toInt, hr, bind, Except.bind, pure,
        Except.pure]
    · rfl
  · rfl

/-- The operator that the VM executes for a compound assignment. -/
def compoundFn (arrays : Arrays) : OpCode → Value → Value → Except Fault Value
  | .concat => Value.concat arrays
  | op => (binaryFn arrays op).getD fun _ _ => .ok .none

/-- The operators of both engines are the same functions. -/
theorem compoundFn_eq (arrays : Arrays) {op : AssignOp} {code : OpCode}
    (h : Compile.compoundOpCode op = some code) (cur val : Value) :
    compoundFn arrays code cur val = Interp.applyOp arrays op cur val := by
  cases op with
  | set => cases h
  | add => cases h; exact fastArith_eq _ _ cur val
  | sub => cases h; exact fastArith_eq _ _ cur val
  | mul => cases h; exact fastArith_eq _ _ cur val
  | div => cases h; rfl
  | mod => cases h; rfl
  | concat => cases h; rfl
  | bitAnd => cases h; rfl
  | bitOr => cases h; rfl
  | bitXor => cases h; rfl

end Operators

/-! ## The instructions of an indexed assignment -/

section Words

/-- The instructions that `compile_assign_expr` emits behind the code of the
container, the key and the value. -/
def assignWords (op : AssignOp) (arr idx val old tmp r : Nat) : List Instruction :=
  match Compile.compoundOpCode op with
  | none => [⟨.arraySet, arr, idx, val⟩, ⟨.arrayGet, r, arr, idx⟩]
  | some code =>
    [⟨.arrayGet, old, arr, idx⟩, ⟨code, tmp, old, val⟩, ⟨.arraySet, arr, idx, tmp⟩,
      ⟨.arrayGet, r, arr, idx⟩]

variable [DoubleOps]

/-- The value that is stored. -/
def vmCombine (arrays : Arrays) (op : AssignOp) (obj key val : Value) : Except Fault Value :=
  match Compile.compoundOpCode op with
  | none => .ok val
  | some code => do
    let cur ← arrayGet arrays obj key
    compoundFn arrays code cur val

/-- `ARRAY_SET` and the `ARRAY_GET` for the value of the assignment. -/
def vmStore (w : World) (obj key nv : Value) : World × Except Fault Value :=
  match arraySet w obj key nv with
  | (_, w, some e) => (w, .error e)
  | (obj, w, none) => (w, arrayGet w.arrays obj key)

/-- What the VM makes of `obj[key] op= val`. -/
def vmAssign (w : World) (op : AssignOp) (obj key val : Value) : World × Except Fault Value :=
  match vmCombine w.arrays op obj key val with
  | .error e => (w, .error e)
  | .ok nv => vmStore w obj key nv

/-- The end of a run: the world, and the value in register `r` or the error. -/
def Ends (r : Nat) (out : World × Except Fault Value) : Res VmState Halt Unit → Prop
  | .ok _ s => s.world = out.1 ∧ ∃ v, out.2 = .ok v ∧ s.vm.regs[r]? = some v
  | .error h s => s.world = out.1 ∧ ∃ e, out.2 = .error e ∧ h = faultHalt e
  | .timeout => False

/-- The registers of an indexed assignment: the container, the key and the value
are in theirs, and the others are free. -/
structure AssignRegs (s : VmState) (base arr idx val old tmp r : Nat) (obj key v : Value) :
    Prop where
  hobj : s.vm.regs[base + arr]? = some obj
  hkey : s.vm.regs[base + idx]? = some key
  hval : s.vm.regs[base + val]? = some v
  hold : base + old < s.vm.regs.length
  htmp : base + tmp < s.vm.regs.length
  hresult : base + r < s.vm.regs.length
  old_ne : old ≠ arr ∧ old ≠ idx ∧ old ≠ val
  tmp_ne : tmp ≠ arr ∧ tmp ≠ idx ∧ tmp ≠ old
  idx_ne : idx ≠ arr

variable {m : Machine} {f : Frame} {s : VmState} {arr idx val old tmp r : Nat} {obj key v nv : Value}

omit [DoubleOps] in
theorem ends_finish (h : f.base + r < s.vm.regs.length) (out : Except Fault Value) :
    Ends (f.base + r) (s.world, out) (finish (f.base + r) s out) := by
  cases out with
  | ok v => exact ⟨rfl, v, rfl, s.write_self _ v h⟩
  | error e => exact ⟨rfl, e, rfl, rfl⟩

theorem runWords_store (harr : s.vm.regs[f.base + arr]? = some obj)
    (hidx : s.vm.regs[f.base + idx]? = some key) (hval : s.vm.regs[f.base + val]? = some nv)
    (hr : f.base + r < s.vm.regs.length) (hne : idx ≠ arr) :
    Ends (f.base + r) (vmStore s.world obj key nv)
      (runWords m f [⟨.arraySet, arr, idx, val⟩, ⟨.arrayGet, r, arr, idx⟩] s) := by
  have hset := exec_arraySet m f harr hidx hval
  unfold vmStore
  cases hres : arraySet s.world obj key nv with
  | mk obj' rest =>
    obtain ⟨w, e⟩ := rest
    rw [hres] at hset
    cases e with
    | some e =>
      rw [runWords_cons_error m f hset]
      exact ⟨rfl, e, rfl, rfl⟩
    | none =>
      rw [runWords_cons_ok m f hset]
      have hlt : f.base + arr < (s.withWorld w).vm.regs.length := lt_of_reg harr
      have hsep : f.base + arr ≠ f.base + idx := by omega
      have hget := exec_arrayGet (s := (s.withWorld w).write (f.base + arr) obj') m f (a := r)
        (by simpa using hr) ((s.withWorld w).write_self _ obj' hlt)
        (by rw [VmState.write_of_ne _ _ _ hsep]; exact hidx)
      have hends := ends_finish (f := f) (r := r) (s := (s.withWorld w).write (f.base + arr) obj')
        (by simpa using hr) (arrayGet w.arrays obj' key)
      simp only [VmState.write_world, VmState.withWorld_world] at hget hends
      show Ends _ (w, arrayGet w.arrays obj' key) _
      cases hout : arrayGet w.arrays obj' key with
      | ok v =>
        rw [hout] at hget hends
        rw [runWords_cons_ok m f hget]
        exact hends
      | error e =>
        rw [hout] at hget hends
        rw [runWords_cons_error m f hget]
        exact hends

/-- The operator of a compound assignment. -/
theorem exec_compound {op : AssignOp} {code : OpCode} (hop : Compile.compoundOpCode op = some code)
    (hne : tmp ≠ old) (ht : f.base + tmp < s.vm.regs.length)
    (ho : s.vm.regs[f.base + old]? = some obj) (hv : s.vm.regs[f.base + val]? = some v) :
    execPlain m f ⟨code, tmp, old, val⟩ s =
      finish (f.base + tmp) s (compoundFn s.world.arrays code obj v) := by
  cases op with
  | set => cases hop
  | concat => cases hop; exact exec_concat m f hne ht ho hv
  | _ => cases hop; exact exec_binary m f rfl ht ho hv

/-- The instructions of an indexed assignment compute `vmAssign`. -/
theorem runWords_assign (op : AssignOp)
    (h : AssignRegs s f.base arr idx val old tmp r obj key v) :
    Ends (f.base + r) (vmAssign s.world op obj key v)
      (runWords m f (assignWords op arr idx val old tmp r) s) := by
  unfold assignWords vmAssign vmCombine
  cases hop : Compile.compoundOpCode op with
  | none => exact runWords_store h.hobj h.hkey h.hval h.hresult h.idx_ne
  | some code =>
    have hget := exec_arrayGet m f (a := old) h.hold h.hobj h.hkey
    cases hcur : arrayGet s.world.arrays obj key with
    | error e =>
      rw [hcur] at hget
      rw [runWords_cons_error m f hget]
      exact ⟨rfl, e, rfl, rfl⟩
    | ok cur =>
      rw [hcur] at hget
      simp only [runWords_cons_ok m f hget, bind, Except.bind]
      obtain ⟨hoa, hoi, hov⟩ := h.old_ne
      obtain ⟨hta, hti, hto⟩ := h.tmp_ne
      have hov' : f.base + old ≠ f.base + val := by omega
      have hval : (s.write (f.base + old) cur).vm.regs[f.base + val]? = some v := by
        rw [s.write_of_ne _ _ hov']
        exact h.hval
      have hexec := exec_compound (m := m) hop hto (by simpa using h.htmp)
        (s.write_self _ cur h.hold) hval
      rw [VmState.write_world] at hexec
      cases hnv : compoundFn s.world.arrays code cur v with
      | error e =>
        rw [hnv] at hexec
        rw [runWords_cons_error m f hexec]
        exact ⟨rfl, e, rfl, rfl⟩
      | ok nv =>
        rw [hnv] at hexec
        rw [runWords_cons_ok m f hexec]
        have hkeep : ∀ i : Nat, old ≠ i → tmp ≠ i →
            ((s.write (f.base + old) cur).write (f.base + tmp) nv).vm.regs[f.base + i]? =
              s.vm.regs[f.base + i]? := fun i ho ht => by
          have ho' : f.base + old ≠ f.base + i := by omega
          have ht' : f.base + tmp ≠ f.base + i := by omega
          rw [VmState.write_of_ne _ _ _ ht', VmState.write_of_ne _ _ _ ho']
        refine runWords_store (s := (s.write (f.base + old) cur).write (f.base + tmp) nv)
          ((hkeep arr hoa hta).trans h.hobj) ((hkeep idx hoi hti).trans h.hkey)
          (VmState.write_self _ _ _ (by simpa using h.htmp)) (by simpa using h.hresult) h.idx_ne

end Words

/-! ## Reads -/

section Reads

variable [DoubleOps] {arrays : Arrays} {vec : List Value} {k : String}

/-- The read does not reach a difference of the engines: the container is an
array, and an associative one is read with a string that is not the tag of a
struct. -/
def ReadClean (arrays : Arrays) (obj key : Value) : Prop :=
  ∃ p, obj = .array p ∧ (isAssoc (arrays.getD p []) →
    ∃ k, key = .string k ∧ (pairsStart (arrays.getD p []) = 3 → k ≠ "__struct__"))

/-- The field read does not reach a difference of the engines: the container is
associative, and the field is not the tag of a struct. -/
def MemberClean (arrays : Arrays) (obj : Value) (field : String) : Prop :=
  ∃ p, obj = .array p ∧ isAssoc (arrays.getD p []) ∧
    (pairsStart (arrays.getD p []) = 3 → field ≠ "__struct__")

/-- Both engines search the same pairs, unless the key is the tag of a struct. -/
theorem findPair_eq (h : isAssoc vec) (hk : pairsStart vec = 3 → k ≠ "__struct__") :
    Interp.findPair arrays vec k =
      findKey arrays k (pairsStart vec) (vec.drop (pairsStart vec)) := by
  unfold Interp.findPair
  by_cases hstruct : 2 < vec.length ∧ vec[1]? = some structTag
  · have hstart : pairsStart vec = 3 := if_pos hstruct
    rw [hstart]
    match vec, hstruct with
    | _ :: x :: name :: rest, ⟨_, htag⟩ =>
      obtain rfl : x = structTag := by simpa using htag
      show findKey arrays k 1 (structTag :: name :: rest) = findKey arrays k 3 rest
      rw [structTag, findKey_cons, if_neg (Ne.symm (hk hstart))]
  · rw [show pairsStart vec = 1 from if_neg hstruct]

omit [DoubleOps] in
theorem notFoundNull_eq (vec : List Value) : Interp.notFoundNull vec = readPair vec := by
  funext found
  cases found <;> rfl

theorem read_numeric (p : Nat) {key : Value} (h : ¬isAssoc (arrays.getD p []))
    (hk : ¬isStrKey key) :
    SameOutcome (arrayGet arrays (.array p) key) (Interp.indexNumeric (arrays.getD p []) key) := by
  simp only [arrayGet, h, hk, if_false, Interp.indexNumeric, Bool.false_eq_true]
  by_cases hout : normIndex key (arrays.getD p []).length < 0 ∨
      ((arrays.getD p []).length : Int) ≤ normIndex key (arrays.getD p []).length
  · rw [if_pos hout, if_pos hout]
    trivial
  · rw [if_neg hout, if_neg hout]
    rfl

theorem read_same {obj key : Value} (h : ReadClean arrays obj key) :
    SameOutcome (arrayGet arrays obj key) (Interp.index arrays obj key) := by
  obtain ⟨p, rfl, hassoc⟩ := h
  by_cases hm : isAssoc (arrays.getD p [])
  · obtain ⟨k, rfl, hk⟩ := hassoc hm
    have hi : Interp.index arrays (.array p) (.string k) =
        arrayGet arrays (.array p) (.string k) := by
      rw [arrayGet_of_isAssoc hm, ← findPair_eq hm hk, ← notFoundNull_eq]
      exact if_pos hm
    rw [hi]
    exact .refl _
  · by_cases hk : isStrKey key
    · cases key with
      | string k =>
        have hint : !isIntKey k := hk
        simp only [arrayGet, hm, hk, Interp.index, hint, if_true, if_false, Bool.false_eq_true]
        rfl
      | _ => cases hk
    · have hi : Interp.index arrays (.array p) key =
          Interp.indexNumeric (arrays.getD p []) key := by
        cases key with
        | string k =>
          have hint : ¬!isIntKey k := hk
          simp only [Interp.index, hm, hint, if_false, Bool.false_eq_true]
        | _ => rfl
      rw [hi]
      exact read_numeric p hm hk

theorem member_same {obj : Value} {field : String} (h : MemberClean arrays obj field) :
    SameOutcome (arrayGet arrays obj (.string field)) (Interp.member arrays obj field) := by
  obtain ⟨p, rfl, hm, hk⟩ := h
  have hi : Interp.member arrays (.array p) field =
      arrayGet arrays (.array p) (.string field) := by
    rw [arrayGet_of_isAssoc hm, ← findPair_eq hm hk, ← notFoundNull_eq]
    exact if_pos hm
  rw [hi]
  exact .refl _

/-- Reading from anything but an array is null in the VM and an error in the
interpreter. -/
theorem read_not_array {obj : Value} (h : ∀ p, obj ≠ .array p) (key : Value) (field : String) :
    ¬SameOutcome (arrayGet arrays obj key) (Interp.index arrays obj key) ∧
      ¬SameOutcome (arrayGet arrays obj (.string field)) (Interp.member arrays obj field) := by
  cases obj with
  | array p => exact absurd rfl (h p)
  | _ => exact ⟨id, id⟩

end Reads

/-! ## Writes -/

/-- The operators that throw on null. -/
def AssignOp.isArith : AssignOp → Bool
  | .add | .sub | .mul | .div | .mod => true
  | _ => false

section Writes

variable [DoubleOps]

/-- The write to a list does not reach a difference of the engines.  A key that
is not a number converts the list: the operator must not throw and its operand
must have the same text before and after the conversion.  A position must not
lie behind the end unless the value is stored as it is or the operator throws on
null.  No write may forge a tag. -/
def ListClean (w : World) (op : AssignOp) (p : Nat) (key val : Value) : Prop :=
  let vec := w.array p
  if isStrKey key then
    op.isArith = false ∧ (vec = [] → key ≠ structTag) ∧
      (op = .concat → ∃ t, val.toStr w.arrays = .ok t ∧
        val.toStr (w.setArray p (toAssoc vec)).arrays = .ok t)
  else
    (normIndex key vec.length = vec.length → op = .set ∨ op.isArith) ∧
      (normIndex key vec.length = 0 → op = .set → val ≠ assocTag) ∧
      (normIndex key vec.length = 0 → op = .concat →
        (vec.getD 0 .none).concat w.arrays val ≠ .ok assocTag)

/-- The write does not reach a difference of the engines. -/
def WriteClean (w : World) (op : AssignOp) (obj key val : Value) : Prop :=
  match obj with
  | .array p => p < w.arrays.length ∧
      if isAssoc (w.array p) then
        ∃ ps k, AssocLayout (w.array p) ps ∧ key = .string k ∧
          (w.array p = [assocTag] → k ≠ "__struct__") ∧
          (pairsStart (w.array p) = 3 → k ≠ "__struct__")
      else ListClean w op p key val
  | .string _ => op = .concat → ∃ t, val.toStr w.arrays = .ok t
  | .none => op.isArith ∨ op = .set ∧ !isStrKey key ∧ normIndex key 0 ≠ 0
  | _ => op.isArith

variable {w : World} {op : AssignOp} {p : Nat} {key val : Value} {k : String}
  {ps : List (String × Value)}

/-- Both engines agree on an assignment. -/
def Agrees (w : World) (out out' : World × Except Fault Value) : Prop :=
  SameContents w out.1 out'.1 ∧ SameOutcome out.2 out'.2

omit [DoubleOps] in
theorem Agrees.of_eq {w : World} {out out' : World × Except Fault Value} (h : out = out') :
    Agrees w out out' := by
  subst h
  exact ⟨fun _ _ => rfl, .refl _⟩

/-- The stored value is the result of the operator on what the VM reads. -/
theorem vmCombine_eq {arrays : Arrays} {obj cur : Value} (h : arrayGet arrays obj key = .ok cur) :
    vmCombine arrays op obj key val = Interp.applyOp arrays op cur val := by
  unfold vmCombine
  cases hop : Compile.compoundOpCode op with
  | none =>
    cases op with
    | set => rfl
    | _ => cases hop
  | some code =>
    simp only [h, bind, Except.bind]
    exact compoundFn_eq arrays hop cur val

theorem applyOp_none_arith (arrays : Arrays) (h : op.isArith) (val : Value) :
    ∃ m, Interp.applyOp arrays op .none val = .error (.error m) := by
  cases op with
  | add | sub | mul | div | mod => exact ⟨_, rfl⟩
  | _ => cases h

theorem concat_null (arrays : Arrays) (val : Value) :
    Value.none.concat arrays val = (val.toStr arrays).map fun t => .string ("null" ++ t) := by
  have hnull : Value.none.toStr arrays = .ok "null" := rfl
  unfold Value.concat
  rw [hnull]
  cases val.toStr arrays <;> rfl

/-- An operator that does not throw on null needs the text of its operand for
`.=` only. -/
theorem applyOp_none_ok (arrays arrays' : Arrays) (h : op.isArith = false)
    (hc : op = .concat → ∃ t, val.toStr arrays = .ok t ∧ val.toStr arrays' = .ok t) :
    ∃ nv, Interp.applyOp arrays op .none val = .ok nv ∧
      Interp.applyOp arrays' op .none val = .ok nv := by
  cases op with
  | add | sub | mul | div | mod => cases h
  | concat =>
    obtain ⟨t, ht, ht'⟩ := hc rfl
    refine ⟨.string ("null" ++ t), ?_, ?_⟩
    · show Value.none.concat arrays val = _
      rw [concat_null, ht]
      rfl
    · show Value.none.concat arrays' val = _
      rw [concat_null, ht']
      rfl
  | set | bitAnd | bitOr | bitXor => exact ⟨_, rfl, rfl⟩

omit [DoubleOps] in
theorem setArray_array (w : World) (p : Nat) : w.setArray p (w.array p) = w := by
  unfold World.setArray World.array
  by_cases hp : p < w.arrays.length
  · rw [List.getD_eq_getElem?_getD, List.getElem?_eq_getElem hp, Option.getD_some,
      List.set_getElem_self]
  · rw [List.set_eq_of_length_le (by omega)]

omit [DoubleOps] in
theorem setArray_setArray (w : World) (p : Nat) (vec vec' : List Value) :
    (w.setArray p vec).setArray p vec' = w.setArray p vec' := by
  simp [World.setArray]

/-- `ARRAY_SET` and the read behind it, when the read gives what was stored. -/
theorem vmStore_eq {obj nv : Value} {vec : List Value} (hobj : obj = .array p)
    (hset : setElement w.arrays (w.array p) key nv = .ok vec)
    (hget : arrayGet (w.setArray p vec).arrays (.array p) key = .ok nv) :
    vmStore w obj key nv = (w.setArray p vec, .ok nv) := by
  subst hobj
  have harr : arraySet w (.array p) key nv = (.array p, w.setArray p vec, none) := by
    simp [arraySet, hset]
  simp only [vmStore, harr, hget]

/-! ### Associative arrays -/

/-- The interpreter's write to an associative array, as an update. -/
theorem assignKey_eq {arrays : Arrays} {vec : List Value} (hl : AssocLayout vec ps)
    (hk : pairsStart vec = 3 → k ≠ "__struct__") :
    Interp.assignKey arrays op vec k val =
      Interp.storeAt arrays op val ((lookup k ps).getD .none) vec fun nv =>
        (setElement arrays vec (.string k) nv).toOption.getD [] := by
  have hfind := findKey_flatPairs arrays k .none (vec.take (pairsStart vec)) ps
  rw [hl.header.2, ← hl.header.1] at hfind
  have hset : ∀ nv, setElement arrays vec (.string k) nv = _ :=
    fun nv => setElement_of_isAssoc hl.isAssoc k nv
  unfold Interp.assignKey
  rw [findPair_eq hl.isAssoc hk, hl.drop_pairsStart]
  rw [hl.drop_pairsStart] at hset
  simp only [hset]
  rcases hfind with ⟨j, hj, -, hget⟩ | ⟨hj, hget, -⟩
  · simp only [hj, hget]
    rfl
  · simp only [hj, hget]
    rfl

theorem write_assoc (hp : p < w.arrays.length) (hl : AssocLayout (w.array p) ps)
    (hone : w.array p = [assocTag] → k ≠ "__struct__")
    (hk : pairsStart (w.array p) = 3 → k ≠ "__struct__") :
    vmAssign w op (.array p) (.string k) val = Interp.assignArray w op p (.string k) val := by
  have hget := arrayGet_assoc hl k
  have hvec : Interp.assignArray w op p (.string k) val =
      (w.setArray p (Interp.assignKey w.arrays op (w.array p) k val).1,
        (Interp.assignKey w.arrays op (w.array p) k val).2) := by
    simp only [Interp.assignArray, hl.isAssoc, setArray_array, Bool.not_true, Bool.false_eq_true,
      and_false, if_false, if_true]
  rw [hvec, assignKey_eq hl hk]
  unfold vmAssign Interp.storeAt
  rw [vmCombine_eq hget]
  cases hnv : Interp.applyOp w.arrays op ((lookup k ps).getD .none) val with
  | error e =>
    simp only [setArray_array]
  | ok nv =>
    obtain ⟨vec, hset, hlayout⟩ := setElement_assoc w.arrays hl nv hone
    have hread : arrayGet (w.setArray p vec).arrays (.array p) (.string k) = .ok nv := by
      have := getString_of_layout hp hlayout k
      rwa [lookup_upsert_self] at this
    simp only [vmStore_eq rfl hset hread, hset]
    rfl

/-! ### Lists -/

theorem arrayGet_list (h : ¬isAssoc (w.array p)) (hk : isStrKey key) :
    arrayGet w.arrays (.array p) key = .ok .none := by
  have h' : isAssoc (w.arrays.getD p []) = false := by simpa [World.array] using h
  simp only [arrayGet, h', hk, Bool.false_eq_true, if_false, if_true]
  rfl

/-- A write that converts the list. -/
theorem write_convert (hp : p < w.arrays.length) (hl : ¬isAssoc (w.array p)) (hk : ¬isIntKey k)
    (harith : op.isArith = false) (htag : w.array p = [] → k ≠ "__struct__")
    (htext : op = .concat → ∃ t, val.toStr w.arrays = .ok t ∧
      val.toStr (w.setArray p (toAssoc (w.array p))).arrays = .ok t) :
    vmAssign w op (.array p) (.string k) val = Interp.assignArray w op p (.string k) val := by
  have hkey : isStrKey (.string k) := by simpa [isStrKey] using hk
  have hlayout := assocLayout_toAssoc (w.array p)
  have hnone : lookup k (indexed (w.array p)) = none := lookup_indexed_of_not_isIntKey hk _
  have hstart : pairsStart (toAssoc (w.array p)) = 3 → k ≠ "__struct__" := by
    intro h3
    cases hvec : w.array p with
    | nil => exact htag hvec
    | cons x rest =>
      rw [hvec, toAssoc_eq] at h3
      rw [AssocLayout.pairsStart_assoc (by rw [indexed, List.zipIdx_cons]; simp; decide)] at h3
      omega
  have hone : toAssoc (w.array p) = [assocTag] → k ≠ "__struct__" := by
    intro h1
    refine htag ?_
    cases hvec : w.array p with
    | nil => rfl
    | cons x rest => rw [hvec] at h1; simp [toAssoc] at h1
  obtain ⟨nv, hnv, hnv'⟩ := applyOp_none_ok _ _ harith htext
  obtain ⟨vec, hset, hvec⟩ := setElement_assoc w.arrays hlayout nv hone
  have hset' : setElement (w.setArray p (toAssoc (w.array p))).arrays (toAssoc (w.array p))
      (.string k) nv = .ok vec := by
    rw [setElement_arrays w.arrays hlayout]
    exact hset
  rw [← setElement_of_list hl hk] at hset
  have hread : arrayGet (w.setArray p vec).arrays (.array p) (.string k) = .ok nv := by
    have := getString_of_layout hp hvec k
    rwa [lookup_upsert_self] at this
  have hvm : vmAssign w op (.array p) (.string k) val = (w.setArray p vec, .ok nv) := by
    unfold vmAssign
    rw [vmCombine_eq (arrayGet_list hl hkey), hnv]
    exact vmStore_eq rfl hset hread
  have hinterp : Interp.assignArray w op p (.string k) val = (w.setArray p vec, .ok nv) := by
    have hconv : (!isIntKey k) = true ∧ (!isAssoc (w.array p)) = true := by simp [hk, hl]
    simp only [Interp.assignArray, if_pos hconv, hlayout.isAssoc, if_true,
      assignKey_eq hlayout hstart, Interp.storeAt, hnone, Option.getD_none, hnv', hset',
      setArray_setArray]
    rfl
  rw [hvm, hinterp]

/-- Reading a position of a list. -/
theorem arrayGet_position {arrays : Arrays} {i : Nat} {x : Value}
    (h : ¬isAssoc (arrays.getD p [])) (hk : ¬isStrKey key)
    (hi : normIndex key (arrays.getD p []).length = i) (hx : (arrays.getD p [])[i]? = some x) :
    arrayGet arrays (.array p) key = .ok x := by
  have hlt := (List.getElem?_eq_some_iff.mp hx).1
  simp only [arrayGet, h, hk, if_false, Bool.false_eq_true]
  rw [hi, if_neg (by omega), Int.toNat_natCast, List.getD_eq_getElem?_getD, hx]
  rfl

/-- The result of an operator is the tag of an associative array only when the
tag is stored as it is or put together. -/
theorem applyOp_ne_tag {arrays : Arrays} {cur : Value} (hset : op = .set → val ≠ assocTag)
    (hc : op = .concat → cur.concat arrays val ≠ .ok assocTag) :
    Interp.applyOp arrays op cur val ≠ .ok assocTag := by
  intro h
  cases op with
  | set => exact hset rfl (Except.ok.inj h)
  | concat => exact hc rfl h
  | bitAnd | bitOr | bitXor => cases h
  | add | sub | mul =>
    simp only [Interp.applyOp, Value.add, Value.sub, Value.mul, Value.arith, bind, Except.bind, pure,
      Except.pure, assocTag] at h
    repeat' split at h
    all_goals cases h
  | div =>
    simp only [Interp.applyOp, Value.div, bind, Except.bind, pure, Except.pure, MonadExcept.throw,
      throwThe, MonadExceptOf.throw, assocTag] at h
    repeat' split at h
    all_goals cases h
  | mod =>
    simp only [Interp.applyOp, Value.mod, bind, Except.bind, pure, Except.pure, MonadExcept.throw,
      throwThe, MonadExceptOf.throw, assocTag] at h
    repeat' split at h
    all_goals cases h

omit [DoubleOps] in
/-- A list that stays one. -/
theorem not_isAssoc_set {vec : List Value} (h : ¬isAssoc vec) {i : Nat} {nv : Value}
    (hnv : i = 0 → nv ≠ assocTag) : ¬isAssoc (vec.set i nv) := by
  cases vec with
  | nil => simpa using h
  | cons x rest =>
    cases i with
    | zero => simpa [isAssoc] using hnv rfl
    | succ i => simpa [isAssoc] using h

theorem assignArray_numeric (hl : ¬isAssoc (w.array p)) (hk : ¬isStrKey key) :
    Interp.assignArray w op p key val =
      (w.setArray p (Interp.assignNumeric w.arrays op (w.array p) key val).1,
        (Interp.assignNumeric w.arrays op (w.array p) key val).2) := by
  cases key with
  | string k =>
    have hint : (!isIntKey k) = false := by simpa [isStrKey] using hk
    simp only [Interp.assignArray, hint, hl, setArray_array, Bool.false_eq_true, false_and, if_false]
  | _ => rfl

theorem setElement_numeric {nv : Value} (hl : ¬isAssoc (w.array p)) (hk : ¬isStrKey key) :
    setElement w.arrays (w.array p) key nv =
      if normIndex key (w.array p).length = (w.array p).length then .ok (w.array p ++ [nv])
      else if normIndex key (w.array p).length < 0 ∨
          ((w.array p).length : Int) < normIndex key (w.array p).length then
        .error (outOfBounds key)
      else .ok ((w.array p).set (normIndex key (w.array p).length).toNat nv) := by
  rw [setElement, if_neg (not_or.mpr ⟨hl, hk⟩)]
  rfl

theorem arrayGet_outside (hl : ¬isAssoc (w.array p)) (hk : ¬isStrKey key)
    (hout : normIndex key (w.array p).length < 0 ∨
      ((w.array p).length : Int) ≤ normIndex key (w.array p).length) :
    arrayGet w.arrays (.array p) key = .error (outOfBounds key) := by
  unfold World.array at hl hout
  simp only [arrayGet, hl, hk, if_false, Bool.false_eq_true]
  rw [if_pos hout]
  rfl

/-- When the read throws, so does the assignment, unless it only stores. -/
theorem vmAssign_read_error {obj : Value} {e : Fault} (h : arrayGet w.arrays obj key = .error e)
    (hop : op ≠ .set) : vmAssign w op obj key val = (w, .error e) := by
  have : vmCombine w.arrays op obj key val = .error e := by
    unfold vmCombine
    cases hc : Compile.compoundOpCode op with
    | none =>
      cases op with
      | set => exact absurd rfl hop
      | _ => cases hc
    | some code => simp only [h, bind, Except.bind]
  simp only [vmAssign, this]

/-- A write behind the last element. -/
theorem write_end (hp : p < w.arrays.length) (hl : ¬isAssoc (w.array p)) (hk : ¬isStrKey key)
    (hi : normIndex key (w.array p).length = (w.array p).length)
    (hop : op = .set ∨ op.isArith)
    (htag : normIndex key (w.array p).length = 0 → op = .set → val ≠ assocTag) :
    Agrees w (vmAssign w op (.array p) key val) (Interp.assignArray w op p key val) := by
  rw [assignArray_numeric hl hk, Interp.assignNumeric]
  simp only [if_pos hi]
  rcases hop with rfl | harith
  · have hset : setElement w.arrays (w.array p) key val = .ok (w.array p ++ [val]) := by
      rw [setElement_numeric hl hk, if_pos hi]
    have hl' : ¬isAssoc (w.array p ++ [val]) := by
      cases hvec : w.array p with
      | nil => simpa [isAssoc] using htag (by rw [hi, hvec]; rfl) rfl
      | cons x rest => rw [hvec] at hl; simpa [isAssoc] using hl
    have hget : arrayGet (w.setArray p (w.array p ++ [val])).arrays (.array p) key = .ok val := by
      refine arrayGet_position (i := (w.array p).length) ?_ hk ?_ ?_
      · rw [array_setArray hp]
        exact hl'
      · rw [array_setArray hp, List.length_append, List.length_singleton]
        exact normIndex_append _ _ hi
      · rw [array_setArray hp]
        simp
    exact .of_eq (vmStore_eq rfl hset hget)
  · have hne : op ≠ .set := by rintro rfl; cases harith
    obtain ⟨m, hm⟩ := applyOp_none_arith w.arrays harith val
    rw [vmAssign_read_error (arrayGet_outside hl hk (.inr (by omega))) hne]
    simp only [Interp.storeAt, hm, setArray_array]
    exact ⟨fun _ _ => rfl, trivial⟩

/-- A write to an element of the list. -/
theorem write_inside (hp : p < w.arrays.length) (hl : ¬isAssoc (w.array p)) (hk : ¬isStrKey key)
    {i : Nat} (hi : normIndex key (w.array p).length = i) (hlt : i < (w.array p).length)
    (hset : i = 0 → op = .set → val ≠ assocTag)
    (hc : i = 0 → op = .concat → ((w.array p).getD 0 .none).concat w.arrays val ≠ .ok assocTag) :
    vmAssign w op (.array p) key val = Interp.assignArray w op p key val := by
  rw [assignArray_numeric hl hk, Interp.assignNumeric]
  simp only [hi, if_neg (show ¬(i : Int) = (w.array p).length by omega),
    if_pos (show (0 : Int) ≤ i ∧ (i : Int) < (w.array p).length by omega), Int.toNat_natCast]
  have hget : arrayGet w.arrays (.array p) key = .ok ((w.array p).getD i .none) := by
    refine arrayGet_position hl hk hi ?_
    show (w.array p)[i]? = some ((w.array p).getD i .none)
    simp [hlt]
  unfold vmAssign Interp.storeAt
  rw [vmCombine_eq hget]
  cases hnv : Interp.applyOp w.arrays op ((w.array p).getD i .none) val with
  | error e => simp only [setArray_array]
  | ok nv =>
    have htag : i = 0 → nv ≠ assocTag := by
      rintro rfl rfl
      exact applyOp_ne_tag (hset rfl) (hc rfl) hnv
    have hstore : setElement w.arrays (w.array p) key nv = .ok ((w.array p).set i nv) := by
      rw [setElement_numeric hl hk, hi, if_neg (by omega), if_neg (by omega), Int.toNat_natCast]
    have hread : arrayGet (w.setArray p ((w.array p).set i nv)).arrays (.array p) key = .ok nv := by
      refine arrayGet_position (i := i) ?_ hk ?_ ?_
      · rw [array_setArray hp]
        exact not_isAssoc_set hl htag
      · rw [array_setArray hp, List.length_set]
        exact hi
      · rw [array_setArray hp, List.getElem?_set_self hlt]
    exact vmStore_eq rfl hstore hread

/-- A write to a position that the list does not have. -/
theorem write_outside (hl : ¬isAssoc (w.array p)) (hk : ¬isStrKey key)
    (hout : normIndex key (w.array p).length < 0 ∨
      ((w.array p).length : Int) < normIndex key (w.array p).length) :
    Agrees w (vmAssign w op (.array p) key val) (Interp.assignArray w op p key val) := by
  rw [assignArray_numeric hl hk, Interp.assignNumeric]
  simp only [if_neg (show ¬normIndex key (w.array p).length = (w.array p).length by omega),
    if_neg (show ¬(0 ≤ normIndex key (w.array p).length ∧
      normIndex key (w.array p).length < (w.array p).length) by omega), setArray_array]
  have hvm : vmAssign w op (.array p) key val = (w, .error (outOfBounds key)) := by
    by_cases hop : op = .set
    · subst hop
      have herr : setElement w.arrays (w.array p) key val = .error (outOfBounds key) := by
        rw [setElement_numeric hl hk, if_neg (by omega), if_pos hout]
      simp [vmAssign, vmCombine, Compile.compoundOpCode, vmStore, arraySet, herr]
    · exact vmAssign_read_error (arrayGet_outside hl hk (by omega)) hop
  rw [hvm]
  exact ⟨fun _ _ => rfl, trivial⟩

theorem write_list (hp : p < w.arrays.length) (hl : ¬isAssoc (w.array p))
    (h : ListClean w op p key val) :
    Agrees w (vmAssign w op (.array p) key val) (Interp.assignArray w op p key val) := by
  unfold ListClean at h
  by_cases hk : isStrKey key
  · rw [if_pos hk] at h
    obtain ⟨harith, htag, htext⟩ := h
    cases key with
    | string k =>
      have hint : ¬isIntKey k := by simpa [isStrKey] using hk
      exact .of_eq (write_convert hp hl hint harith (fun hv hs => htag hv (by rw [hs]; rfl)) htext)
    | _ => cases hk
  · rw [if_neg hk] at h
    obtain ⟨hend, hset, hc⟩ := h
    by_cases hi : normIndex key (w.array p).length = (w.array p).length
    · exact write_end hp hl hk hi (hend hi) hset
    · by_cases hin : 0 ≤ normIndex key (w.array p).length ∧
          normIndex key (w.array p).length < (w.array p).length
      · obtain ⟨i, hi'⟩ : ∃ i : Nat, normIndex key (w.array p).length = i :=
          ⟨_, (Int.toNat_of_nonneg hin.1).symm⟩
        refine .of_eq (write_inside hp hl hk hi' (by omega) (fun h0 => hset ?_) fun h0 => hc ?_)
        · rw [hi', h0]; rfl
        · rw [hi', h0]; rfl
      · exact write_outside hl hk (by omega)

/-! ### Containers that are not arrays -/

theorem write_string (t : String) (hc : op = .concat → ∃ t, val.toStr w.arrays = .ok t)
    (target : String) :
    Agrees w (vmAssign w op (.string t) key val)
      (Interp.assignIndex w target op (.string t) key val) := by
  have hvm : ∃ m, vmAssign w op (.string t) key val = (w, .error (.error m)) := by
    unfold vmAssign
    rw [vmCombine_eq (show arrayGet w.arrays (.string t) key = .ok .none from rfl)]
    by_cases harith : op.isArith
    · obtain ⟨m, hm⟩ := applyOp_none_arith w.arrays harith val
      rw [hm]
      exact ⟨m, rfl⟩
    · obtain ⟨nv, hnv, -⟩ := applyOp_none_ok w.arrays w.arrays
        (by simpa using harith) fun h => (hc h).imp fun t ht => ⟨ht, ht⟩
      rw [hnv]
      exact ⟨_, rfl⟩
  obtain ⟨m, hm⟩ := hvm
  rw [hm]
  exact ⟨fun _ _ => rfl, trivial⟩

/-- An operator that throws on null throws in the VM for every container that is
not an array. -/
theorem write_arith {obj : Value} (hobj : ∀ p, obj ≠ .array p) (harith : op.isArith)
    (target : String) :
    Agrees w (vmAssign w op obj key val) (Interp.assignIndex w target op obj key val) := by
  obtain ⟨m, hm⟩ := applyOp_none_arith w.arrays harith val
  have hget : arrayGet w.arrays obj key = .ok .none := by
    cases obj with
    | array p => exact absurd rfl (hobj p)
    | _ => rfl
  have hvm : vmAssign w op obj key val = (w, .error (.error m)) := by
    unfold vmAssign
    rw [vmCombine_eq hget, hm]
  have hinterp : ∃ m, Interp.assignIndex w target op obj key val = (w, .error (.error m)) := by
    cases obj with
    | array p => exact absurd rfl (hobj p)
    | _ => exact ⟨_, rfl⟩
  obtain ⟨m', hm'⟩ := hinterp
  rw [hvm, hm']
  exact ⟨fun _ _ => rfl, trivial⟩

/-- The new array that the VM makes of null has no element but the first. -/
theorem write_null (hk : ¬isStrKey key) (hi : normIndex key 0 ≠ 0) (target : String) :
    Agrees w (vmAssign w .set .none key val) (Interp.assignIndex w target .set .none key val) := by
  have hnew : (w.newArray []).2.array w.arrays.length = [] := by
    simp [World.newArray, World.array]
  have herr : setElement (w.newArray []).2.arrays [] key val = .error (outOfBounds key) := by
    rw [setElement, if_neg (not_or.mpr ⟨by simp [isAssoc], hk⟩)]
    have hi' : ¬normIndex key 0 = ((0 : Nat) : Int) := hi
    have hout : normIndex key 0 < 0 ∨ ((0 : Nat) : Int) < normIndex key 0 := by omega
    simp only [List.length_nil, if_neg hi', if_pos hout]
    rfl
  have hvm : vmAssign w .set .none key val = ((w.newArray []).2, .error (outOfBounds key)) := by
    have harr : arraySet w .none key val =
        (.array w.arrays.length, (w.newArray []).2, some (outOfBounds key)) := by
      simp only [arraySet, if_true, World.newArray] at hnew herr ⊢
      rw [hnew, herr]
    show vmStore w .none key val = _
    simp only [vmStore, harr]
  rw [hvm]
  refine ⟨fun q hq => ?_, trivial⟩
  show (w.newArray []).2.array q = w.array q
  simp [World.newArray, World.array, List.getElem?_append_left hq]

/-- A write that reaches no difference of the engines. -/
theorem write_same {obj : Value} (h : WriteClean w op obj key val) (target : String) :
    Agrees w (vmAssign w op obj key val) (Interp.assignIndex w target op obj key val) := by
  cases obj with
  | array p =>
    obtain ⟨hp, hclean⟩ := h
    by_cases hm : isAssoc (w.array p)
    · rw [if_pos hm] at hclean
      obtain ⟨ps, k, hl, rfl, hone, hk⟩ := hclean
      exact .of_eq (write_assoc hp hl hone hk)
    · rw [if_neg hm] at hclean
      exact write_list hp hm hclean
  | string t => exact write_string t h target
  | none =>
    rcases h with harith | ⟨rfl, hk, hi⟩
    · exact write_arith (fun _ => by simp) harith target
    · exact write_null (by simpa using hk) hi target
  | _ => exact write_arith (fun _ => by simp) h target

end Writes

/-! ## What the compiler emits -/

section Emission

open Compile

variable {s s' : CompilerState}

theorem code_emit {op : OpCode} {a b c : Nat} (h : emit op a b c s = .ok () s') :
    s'.cur.code = s.cur.code ++ [⟨op, a, b, c⟩] := by
  cases h
  rfl

theorem code_allocTemp {r : Nat} (h : allocTemp s = .ok r s') : s'.cur.code = s.cur.code := by
  unfold allocTemp withRegs at h
  split at h
  · cases h
    rfl
  · cases h

theorem code_freeTemp {r : Nat} (h : freeTemp r s = .ok () s') : s'.cur.code = s.cur.code := by
  cases h
  rfl

theorem combine_emits {op : AssignOp} {arr idx val val' : Nat}
    (h : combine op val (fun old => emit .arrayGet old arr idx) s = .ok val' s') :
    (compoundOpCode op = none ∧ val' = val ∧ s' = s) ∨
    ∃ code old, compoundOpCode op = some code ∧
      s'.cur.code = s.cur.code ++ [⟨.arrayGet, old, arr, idx⟩, ⟨code, val', old, val⟩] := by
  unfold combine at h
  cases hop : compoundOpCode op with
  | none =>
    rw [hop] at h
    cases h
    exact .inl ⟨rfl, rfl, rfl⟩
  | some code =>
    rw [hop] at h
    obtain ⟨old, s₁, h₁, h⟩ := bind_eq_ok.mp h
    obtain ⟨_, s₂, h₂, h⟩ := bind_eq_ok.mp h
    obtain ⟨tmp, s₃, h₃, h⟩ := bind_eq_ok.mp h
    obtain ⟨_, s₄, h₄, h⟩ := bind_eq_ok.mp h
    obtain ⟨_, s₅, h₅, h⟩ := bind_eq_ok.mp h
    obtain ⟨_, s₆, h₆, h⟩ := bind_eq_ok.mp h
    cases h
    refine .inr ⟨code, old, rfl, ?_⟩
    rw [code_freeTemp h₆, code_freeTemp h₅, code_emit h₄, code_allocTemp h₃, code_emit h₂,
      code_allocTemp h₁]
    simp

/-- Behind the code of the container, the key and the value, an assignment whose
value is wanted in `r` is `assignWords`. -/
theorem compileAssignElement_emits [DoubleOps] (rec : Rec) {name : String} {op : AssignOp}
    {object : Expr} {key value : Expr} {loc : VarLoc} {r : Nat}
    (h : compileAssignElement rec name op (some object) key value loc (some r) s = .ok () s') :
    ∃ arr idx val old tmp s₁ s₂ s₃, rec.expr object none s = .ok arr s₁ ∧
      rec.expr key none s₁ = .ok idx s₂ ∧ rec.expr value none s₂ = .ok val s₃ ∧
      s'.cur.code = s₃.cur.code ++ assignWords op arr idx val old tmp r := by
  unfold compileAssignElement at h
  obtain ⟨arr, s₁, h₁, h⟩ := bind_eq_ok.mp h
  obtain ⟨idx, s₂, h₂, h⟩ := bind_eq_ok.mp h
  obtain ⟨val, s₃, h₃, h⟩ := bind_eq_ok.mp h
  obtain ⟨val', s₄, h₄, h⟩ := bind_eq_ok.mp h
  obtain ⟨_, s₅, h₅, h⟩ := bind_eq_ok.mp h
  obtain ⟨r', s₆, h₆, hrest⟩ := bind_eq_ok.mp h
  obtain ⟨rfl, rfl⟩ : r' = r ∧ s₆ = s₅ := by
    unfold u8 at h₆
    split at h₆
    · cases h₆
    · cases h₆
      exact ⟨rfl, rfl⟩
  obtain ⟨_, s₇, h₇, hrest⟩ := bind_eq_ok.mp hrest
  obtain ⟨_, s₈, h₈, hrest⟩ := bind_eq_ok.mp hrest
  obtain ⟨_, s₉, h₉, hrest⟩ := bind_eq_ok.mp hrest
  have hcode : s'.cur.code =
      s₄.cur.code ++ [⟨.arraySet, arr, idx, val'⟩, ⟨.arrayGet, r', arr, idx⟩] := by
    rw [code_freeTemp hrest, code_freeTemp h₉, code_freeTemp h₈, code_emit h₇, code_emit h₅]
    simp
  rcases combine_emits h₄ with ⟨hop, rfl, rfl⟩ | ⟨code, old, hop, hcode'⟩
  · refine ⟨arr, idx, val', 0, 0, s₁, s₂, s₄, h₁, h₂, h₃, ?_⟩
    rw [hcode, assignWords, hop]
  · refine ⟨arr, idx, val, old, val', s₁, s₂, s₃, h₁, h₂, h₃, ?_⟩
    rw [hcode, hcode', assignWords, hop]
    simp

end Emission

/-! ## The engines agree on clean reads and writes -/

end Look
