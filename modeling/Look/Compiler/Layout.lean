/-
What it means that the code of a function is well formed.

A `Layout` is the part of a function that the VM indexes: the words with what
they were emitted for, the line table, the number of registers, the constants
and the nested functions.  A finished `FunctionProto` and a `FunctionCompiler`
at work have one.  `Layout.Ok` says that every operand is in range, that every
jump lands on an instruction and not on a hint word, and that the hint words
behind an instruction are the ones it was emitted with.

The second half is how the compiler's primitives change a layout: sizes grow, a
word or an instruction with its hints is appended, and a jump gets its target.
Each keeps `Ok`.  `Layout.Grows` is what later code may rely on, and it says in
particular that a boundary between instructions stays one.
-/
import Look.Bytecode

namespace Look

/-! ## Operands -/

/-- What the operands `a`, `b`, `c` of an instruction are. -/
inductive Operands where
  /- No operand. -/
  | unit
  /- A register in `a`. -/
  | reg
  | regReg
  | regRegReg
  /- A register in `a` and a constant in `b`. -/
  | regConst
  /- A register in `a` and a constant in `b` and `c`. -/
  | regWide
  | regRegConst
  | regConstReg
  /- A target in `b` and `c`. -/
  | jump
  | regJump
  /- The four registers of an iteration from `a` on. -/
  | iterReg
  | iterJump
  | call
  | builtin
  | closure
  | capture
  | never
deriving DecidableEq

namespace OpCode

/-- The operands of the instructions that the compiler emits. -/
def operands : OpCode → Operands
  | .loadConst => .regConst
  | .loadConstW | .loadGlobal | .storeGlobal | .newStruct | .checkDefined => .regWide
  | .loadNull | .loadTrue | .loadFalse | .loadInt | .newArray | .newAssoc | .loadExc | .loadArgc
  | .ret | .throw | .parallelCall | .chanClose => .reg
  | .move | .unm | .bnot | .not | .toStr | .arrayPush | .chanSend | .chanRecv
  | .chanSize => .regReg
  | .add | .sub | .mul | .div | .mod | .pow | .concat | .eq | .neq | .lt | .gt | .lte | .gte
  | .cmp3 | .band | .bor | .bxor | .shl | .shr | .arrayGet | .arraySet | .assocAppend => .regRegReg
  | .getField => .regRegConst
  | .setField => .regConstReg
  | .jump | .tryPush => .jump
  | .jumpIfFalse | .jumpIfTrue | .jumpIfNull => .regJump
  | .forPrep => .iterReg
  | .forStep => .iterJump
  | .call => .call
  | .callBuiltin => .builtin
  | .makeClosure => .closure
  | .loadCapture => .capture
  | .retNull | .tryPop | .nop => .unit
  | _ => .never

/-- The instruction has a target. -/
def isJump (op : OpCode) : Bool :=
  op.operands = .jump || op.operands = .regJump || op.operands = .iterJump

end OpCode

namespace Instruction

/-- The registers of the argument window of a call. -/
def window (w : Instruction) : Origin → List Nat
  | .call argc _ => (List.range argc).map (w.c + ·)
  | .builtin _ argc => (List.range argc).map (w.c + ·)
  | .output => [w.c]
  | _ => []

/-- The registers that an instruction reads or writes. -/
def regs (w : Instruction) (o : Origin) : List Nat :=
  match w.op.operands with
  | .reg | .regConst | .regJump | .closure => [w.a]
  | .regWide => if o = .hint then [] else [w.a]
  | .regReg | .regRegConst => [w.a, w.b]
  | .regRegReg => [w.a, w.b, w.c]
  | .regConstReg => [w.a, w.c]
  | .iterReg => [w.a, w.a + 1, w.a + 2, w.a + 3, w.b]
  | .iterJump => [w.a, w.a + 1, w.a + 2, w.a + 3]
  | .call => w.a :: w.b :: w.window o
  | .builtin => w.a :: w.window o
  | .capture => if o = .hint then [w.b] else [w.a]
  | .unit | .jump | .never => []

/-- The constants that an instruction reads. -/
def consts (w : Instruction) : List Nat :=
  match w.op.operands with
  | .regConst | .regConstReg => [w.b]
  | .regRegConst => [w.c]
  | .regWide => [w.bx]
  | _ => []

/-- The nested functions that an instruction reads. -/
def functions (w : Instruction) : List Nat :=
  match w.op.operands with
  | .closure => [w.b + 256 * w.c]
  | _ => []

end Instruction

/-- The operands of a word fit into bytes and are in range of `m` registers, `k`
constants and `n` nested functions. -/
structure WordOk (m k n : Nat) (w : Instruction) (o : Origin) : Prop where
  emitted : w.op.operands ≠ .never
  bytes : w.a < 256 ∧ w.b < 256 ∧ w.c < 256
  regs : ∀ r ∈ w.regs o, r < m
  consts : ∀ i ∈ w.consts, i < k
  functions : ∀ i ∈ w.functions, i < n

theorem WordOk.mono {m m' k k' n n' : Nat} {w : Instruction} {o : Origin} (h : WordOk m k n w o)
    (hm : m ≤ m') (hk : k ≤ k') (hn : n ≤ n') : WordOk m' k' n' w o where
  emitted := h.emitted
  bytes := h.bytes
  regs := fun r hr => Nat.lt_of_lt_of_le (h.regs r hr) hm
  consts := fun i hi => Nat.lt_of_lt_of_le (h.consts i hi) hk
  functions := fun i hi => Nat.lt_of_lt_of_le (h.functions i hi) hn

theorem OpCode.operands_of_isJump {op : OpCode} (h : op.isJump) :
    op.operands = .jump ∨ op.operands = .regJump ∨ op.operands = .iterJump := by
  simpa [OpCode.isJump, or_assoc] using h

/-- The target of a jump is none of its registers, constants or functions. -/
theorem WordOk.retarget {m k n : Nat} {w₀ w : Instruction} {o : Origin} (h : WordOk m k n w₀ o)
    (hop : w₀.op = w.op) (ha : w₀.a = w.a) (hj : w.op.isJump) (hb : w.b < 256) (hc : w.c < 256) :
    WordOk m k n w o := by
  have hregs := h.regs
  have hbyte := h.bytes.1
  unfold Instruction.regs at hregs
  rw [hop, ha] at hregs
  rw [ha] at hbyte
  rcases OpCode.operands_of_isJump hj with hs | hs | hs <;>
  · rw [hs] at hregs
    refine ⟨by simp [hs], ⟨hbyte, hb, hc⟩, ?_, ?_, ?_⟩
    · unfold Instruction.regs
      rw [hs]
      exact hregs
    · simp [Instruction.consts, hs]
    · simp [Instruction.functions, hs]

/-! ## Hints -/

/-- The text of a constant is `name`, and 0 stands for no name. -/
def CalleeConst (constants : List Value) : Option String → Nat → Prop
  | none, i => i = 0
  | some name, i => i ≠ 0 ∧ constants[i - 1]? = some (.string name)

/-- A hint word that names a field. -/
def FieldHint (constants : List Value) (h : Instruction) (name : String) : Prop :=
  h.op = .loadConstW ∧ constants[h.bx]? = some (.string name)

/-- The hint words `hs` behind the instruction `w` are those of its origin.  The
hint of a `CALL` and the hints of a `NEW_STRUCT` may be missing, or the field
names may stop short: an error in between leaves the instruction as it is. -/
def HintsFit (constants : List Value) (w : Instruction) (hs : List Instruction) : Origin → Prop
  | .call argc name => w.op = .call ∧
      (hs = [] ∨ ∃ h, hs = [h] ∧ h.op = .nop ∧ h.a = argc ∧ CalleeConst constants name h.bx)
  | .builtin index argc => w.op = .callBuiltin ∧
      ∃ h, hs = [h] ∧ h.op = .nop ∧ h.a = argc ∧ w.b + 256 * h.b = index
  | .output => w.op = .callBuiltin ∧ w.b = 1 ∧ hs = []
  | .structLit names => w.op = .newStruct ∧
      (hs = [] ∨ ∃ h rest, hs = h :: rest ∧ h.op = .nop ∧ h.a = names.length ∧
        rest.length ≤ names.length ∧
        ∀ (j : Nat) f name, rest[j]? = some f → names[j]? = some name → FieldHint constants f name)
  | .closure captures => w.op = .makeClosure ∧
      hs = captures.map fun r => { op := .loadCapture, b := r }
  | .plain | .leave => hs = [] ∧ w.op ∉ [.call, .callBuiltin, .newStruct, .makeClosure]
  | .hint => w.op ∈ [.nop, .loadConstW, .loadCapture]

theorem getElem?_extends {α : Type} {xs ys : List α} (h : xs <+: ys) {i : Nat} {a : α}
    (hi : xs[i]? = some a) : ys[i]? = some a := by
  obtain ⟨zs, rfl⟩ := h
  rw [List.getElem?_append_left (List.getElem?_eq_some_iff.mp hi).1]
  exact hi

section Constants

variable {ks ks' : List Value}

theorem CalleeConst.mono (h : ks <+: ks') {name : Option String} {i : Nat}
    (hi : CalleeConst ks name i) : CalleeConst ks' name i := by
  cases name with
  | none => exact hi
  | some name => exact ⟨hi.1, getElem?_extends h hi.2⟩

/-- More constants do not change what the hints say. -/
theorem HintsFit.mono (h : ks <+: ks') {w : Instruction} {hs : List Instruction} {o : Origin}
    (hf : HintsFit ks w hs o) : HintsFit ks' w hs o := by
  cases o with
  | call argc name =>
    obtain ⟨hop, rfl | ⟨x, rfl, hx, ha, hc⟩⟩ := hf
    · exact ⟨hop, .inl rfl⟩
    · exact ⟨hop, .inr ⟨x, rfl, hx, ha, hc.mono h⟩⟩
  | structLit names =>
    obtain ⟨hop, rfl | ⟨x, rest, rfl, hx, ha, hlen, hr⟩⟩ := hf
    · exact ⟨hop, .inl rfl⟩
    · refine ⟨hop, .inr ⟨x, rest, rfl, hx, ha, hlen, fun j f name hj hn => ?_⟩⟩
      exact ⟨(hr j f name hj hn).1, getElem?_extends h (hr j f name hj hn).2⟩
  | _ => exact hf

/-- The hints of a jump do not depend on its target. -/
theorem HintsFit.retarget {w₀ w : Instruction} {hs : List Instruction} {o : Origin}
    (hf : HintsFit ks w₀ hs o) (hop : w₀.op = w.op) (hj : w.op.isJump) : HintsFit ks w hs o := by
  rw [← hop] at hj
  cases o with
  | plain => exact ⟨hf.1, hop ▸ hf.2⟩
  | leave => exact ⟨hf.1, hop ▸ hf.2⟩
  | hint =>
    unfold HintsFit at hf ⊢
    exact hop ▸ hf
  | _ =>
    rw [hf.1] at hj
    cases hj

end Constants

/-! ## Layouts -/

/-- The part of a function that the VM indexes. -/
structure Layout where
  words : List (Instruction × Origin)
  lines : List Nat
  regs : Nat
  constants : List Value
  nested : List FunctionProto

namespace Layout

/-- The hint words behind an address. -/
def hints (l : Layout) (i : Nat) : List Instruction :=
  ((l.words.drop (i + 1)).takeWhile fun x => x.2 = .hint).map Prod.fst

/-- An address between two instructions: the end of the code, or a word that is
not a hint. -/
def Boundary (l : Layout) (t : Nat) : Prop :=
  t ≤ l.words.length ∧ ∀ w, l.words[t]? ≠ some (w, .hint)

structure Ok (l : Layout) : Prop where
  lines : l.lines.length = l.words.length
  start : l.Boundary 0
  words : ∀ x ∈ l.words, WordOk l.regs l.constants.length l.nested.length x.1 x.2
  jumps : ∀ x ∈ l.words, x.1.op.isJump → l.Boundary x.1.bx
  hints : ∀ i w o, l.words[i]? = some (w, o) → HintsFit l.constants w (l.hints i) o

/-- The word at an address has a target. -/
def IsJump (l : Layout) (i : Nat) : Prop := ∃ w o, l.words[i]? = some (w, o) ∧ w.op.isJump

/-- What the compiler does to the layout of a function: it only adds to it, and
it does not put a hint word where an instruction may start. -/
structure Grows (l l' : Layout) : Prop where
  regs : l.regs ≤ l'.regs
  constants : l.constants <+: l'.constants
  nested : l.nested <+: l'.nested
  length : l.words.length ≤ l'.words.length
  boundary : ∀ t, l.Boundary t → l'.Boundary t
  jump : ∀ i, l.IsJump i → l'.IsJump i

namespace Grows

variable {l l₁ l₂ l₃ : Layout}

theorem refl (l : Layout) : l.Grows l :=
  ⟨Nat.le_refl _, List.prefix_refl _, List.prefix_refl _, Nat.le_refl _, fun _ h => h, fun _ h => h⟩

theorem trans (h : l₁.Grows l₂) (h' : l₂.Grows l₃) : l₁.Grows l₃ where
  regs := Nat.le_trans h.regs h'.regs
  constants := h.constants.trans h'.constants
  nested := h.nested.trans h'.nested
  length := Nat.le_trans h.length h'.length
  boundary := fun t ht => h'.boundary t (h.boundary t ht)
  jump := fun i hi => h'.jump i (h.jump i hi)

end Grows

/-! ### More registers, constants and nested functions -/

/-- The layouts differ in their sizes only, and the second one has more of each. -/
structure Wider (l l' : Layout) : Prop where
  words : l'.words = l.words
  lines : l'.lines = l.lines
  regs : l.regs ≤ l'.regs
  constants : l.constants <+: l'.constants
  nested : l.nested <+: l'.nested

namespace Wider

variable {l l' : Layout}

theorem grows (h : l.Wider l') : l.Grows l' := by
  refine ⟨h.regs, h.constants, h.nested, ?_, fun t ht => ?_, fun i hi => ?_⟩
  · exact Nat.le_of_eq (by rw [h.words])
  · unfold Boundary
    rw [h.words]
    exact ht
  · unfold IsJump
    rw [h.words]
    exact hi

theorem ok (h : l.Wider l') (hl : l.Ok) : l'.Ok where
  lines := by rw [h.lines, h.words, hl.lines]
  start := h.grows.boundary 0 hl.start
  words := fun x hx => (hl.words x (h.words ▸ hx)).mono h.regs h.constants.length_le
    h.nested.length_le
  jumps := fun x hx hj => h.grows.boundary _ (hl.jumps x (h.words ▸ hx) hj)
  hints := fun i w o hi => by
    rw [h.words] at hi
    have hh : l'.hints i = l.hints i := by unfold hints; rw [h.words]
    rw [hh]
    exact (hl.hints i w o hi).mono h.constants

end Wider

/-! ### Another instruction -/

/-- Append an instruction with its hint words. -/
def pushUnit (l : Layout) (w : Instruction) (o : Origin) (hs : List Instruction)
    (lines : List Nat) : Layout :=
  { l with words := l.words ++ (w, o) :: hs.map (·, .hint), lines := l.lines ++ lines }

section PushUnit

variable {l : Layout} {w : Instruction} {o : Origin} {hs : List Instruction} {lines : List Nat}

theorem hints_pushUnit_of_lt (ho : o ≠ .hint) {i : Nat} (hi : i < l.words.length) :
    (l.pushUnit w o hs lines).hints i = l.hints i := by
  unfold hints pushUnit
  rw [List.drop_append_of_le_length hi, List.takeWhile_append]
  split
  · rename_i hall
    rw [List.takeWhile_cons_of_neg (by simpa using ho), List.append_nil,
      (List.takeWhile_prefix _).eq_of_length hall]
  · rfl

theorem hints_pushUnit_length : (l.pushUnit w o hs lines).hints l.words.length = hs := by
  unfold hints pushUnit
  rw [List.drop_append, List.drop_eq_nil_of_le (Nat.le_succ _), Nat.add_sub_cancel_left]
  rw [List.nil_append, List.drop_one, List.tail_cons]
  induction hs with
  | nil => rfl
  | cons h rest ih => simpa using ih

theorem getElem?_pushUnit_length :
    (l.pushUnit w o hs lines).words[l.words.length]? = some (w, o) := by
  simp [pushUnit]

theorem pushUnit_grows (ho : o ≠ .hint) : l.Grows (l.pushUnit w o hs lines) where
  regs := Nat.le_refl _
  constants := List.prefix_refl _
  nested := List.prefix_refl _
  length := by
    simp only [pushUnit, List.length_append]
    omega
  boundary := by
    rintro t ⟨ht, hhint⟩
    refine ⟨?_, fun x hx => ?_⟩
    · simp only [pushUnit, List.length_append]
      omega
    · rcases Nat.lt_or_eq_of_le ht with hlt | rfl
      · rw [pushUnit, List.getElem?_append_left hlt] at hx
        exact hhint x hx
      · rw [getElem?_pushUnit_length] at hx
        exact ho (Prod.mk.inj (Option.some.inj hx)).2
  jump := by
    rintro i ⟨x, p, hi, hx⟩
    exact ⟨x, p, getElem?_extends (List.prefix_append _ _) hi, hx⟩

/-- A word of a longer layout is an old one, the instruction, or one of its
hints. -/
theorem getElem?_pushUnit {i : Nat} {x : Instruction × Origin}
    (h : (l.pushUnit w o hs lines).words[i]? = some x) :
    i < l.words.length ∧ l.words[i]? = some x ∨ i = l.words.length ∧ x = (w, o) ∨
      x.1 ∈ hs ∧ x.2 = .hint := by
  rcases Nat.lt_trichotomy i l.words.length with hlt | rfl | hgt
  · rw [pushUnit, List.getElem?_append_left hlt] at h
    exact .inl ⟨hlt, h⟩
  · rw [getElem?_pushUnit_length] at h
    exact .inr (.inl ⟨rfl, (Option.some.inj h).symm⟩)
  · rw [pushUnit, List.getElem?_append_right (Nat.le_of_lt hgt),
      show i - l.words.length = (i - l.words.length - 1) + 1 by omega,
      List.getElem?_cons_succ] at h
    obtain ⟨y, hy, rfl⟩ := List.mem_map.mp (List.mem_of_getElem? h)
    exact .inr (.inr ⟨hy, rfl⟩)

/-- Appending an instruction whose operands are in range, together with the hints
of its origin. -/
theorem Ok.pushUnit (hl : l.Ok) (ho : o ≠ .hint)
    (hw : WordOk l.regs l.constants.length l.nested.length w o)
    (hjump : w.op.isJump → l.Boundary w.bx) (hfit : HintsFit l.constants w hs o)
    (hhs : ∀ h ∈ hs, h.op ∈ [.nop, .loadConstW, .loadCapture] ∧
      WordOk l.regs l.constants.length l.nested.length h .hint)
    (hlines : lines.length = hs.length + 1) : (l.pushUnit w o hs lines).Ok := by
  have hgrows : l.Grows (l.pushUnit w o hs lines) := pushUnit_grows ho
  have hop : ∀ h ∈ hs, h.op.isJump = false := by
    intro h hh
    have := (hhs h hh).1
    simp only [List.mem_cons, List.not_mem_nil, or_false] at this
    rcases this with hx | hx | hx <;> rw [hx] <;> rfl
  refine ⟨?_, hgrows.boundary 0 hl.start, fun x hx => ?_, fun x hx hj => ?_, fun i y p hi => ?_⟩
  · simp only [Layout.pushUnit, List.length_append, List.length_cons, List.length_map, hl.lines,
      hlines]
  · obtain ⟨i, hi⟩ := List.mem_iff_getElem?.mp hx
    rcases getElem?_pushUnit hi with ⟨-, hold⟩ | ⟨-, rfl⟩ | ⟨hh, hp⟩
    · exact hl.words x (List.mem_of_getElem? hold)
    · exact hw
    · rw [hp]
      exact (hhs _ hh).2
  · obtain ⟨i, hi⟩ := List.mem_iff_getElem?.mp hx
    refine hgrows.boundary _ ?_
    rcases getElem?_pushUnit hi with ⟨-, hold⟩ | ⟨-, rfl⟩ | ⟨hh, hp⟩
    · exact hl.jumps x (List.mem_of_getElem? hold) hj
    · exact hjump hj
    · rw [hop _ hh] at hj
      cases hj
  · rcases getElem?_pushUnit hi with ⟨hlt, hold⟩ | ⟨rfl, heq⟩ | ⟨hh, hp⟩
    · rw [hints_pushUnit_of_lt ho hlt]
      exact hl.hints i y p hold
    · cases heq
      rw [hints_pushUnit_length]
      exact hfit
    · cases hp
      exact (hhs y hh).1

end PushUnit

/-! ### The target of a jump -/

/-- Give the word at an address its target. -/
def setTarget (l : Layout) (i hi lo : Nat) : Layout :=
  { l with words := l.words.modify i fun x => ({ x.1 with b := hi, c := lo }, x.2) }

section SetTarget

variable {l : Layout} {i hi lo : Nat}

theorem getElem?_setTarget (j : Nat) : (l.setTarget i hi lo).words[j]? =
    if i = j then l.words[j]?.map fun x => ({ x.1 with b := hi, c := lo }, x.2)
    else l.words[j]? := by
  simp only [setTarget, List.getElem?_modify]
  split <;> simp

/-- The words that are not jumps are the same, and all words keep their opcode,
first operand and origin. -/
theorem setTarget_cases (hjump : l.IsJump i) {j : Nat} {w : Instruction} {o : Origin}
    (h : (l.setTarget i hi lo).words[j]? = some (w, o)) :
    l.words[j]? = some (w, o) ∨ w.op.isJump ∧ w.b = hi ∧ w.c = lo ∧
      ∃ w₀, l.words[j]? = some (w₀, o) ∧ w₀.op = w.op ∧ w₀.a = w.a := by
  rw [getElem?_setTarget] at h
  split at h
  · rename_i hij
    subst hij
    obtain ⟨w₀, o₀, hw₀, hj⟩ := hjump
    rw [hw₀] at h
    cases h
    exact .inr ⟨hj, rfl, rfl, w₀, hw₀, rfl, rfl⟩
  · exact .inl h

theorem setTarget_grows : l.Grows (l.setTarget i hi lo) where
  regs := Nat.le_refl _
  constants := List.prefix_refl _
  nested := List.prefix_refl _
  length := by simp [setTarget]
  boundary := by
    rintro t ⟨ht, hhint⟩
    refine ⟨by simpa [setTarget] using ht, fun x hx => ?_⟩
    rw [getElem?_setTarget] at hx
    split at hx
    · obtain ⟨⟨y, p⟩, hy, heq⟩ := Option.map_eq_some_iff.mp hx
      cases heq
      exact hhint y hy
    · exact hhint x hx
  jump := by
    rintro j ⟨w, o, hj, hop⟩
    by_cases hij : i = j
    · exact ⟨{ w with b := hi, c := lo }, o, by rw [getElem?_setTarget, if_pos hij, hj]; rfl, hop⟩
    · exact ⟨w, o, by rw [getElem?_setTarget, if_neg hij, hj], hop⟩

/-- The run of hint words at the head of a list depends on its hint words only. -/
theorem takeWhile_hint_congr {xs ys : List (Instruction × Origin)}
    (h : ∀ (k : Nat) w, xs[k]? = some (w, .hint) ↔ ys[k]? = some (w, .hint)) :
    (xs.takeWhile fun x => x.2 = .hint).map Prod.fst =
      (ys.takeWhile fun x => x.2 = .hint).map Prod.fst := by
  induction xs generalizing ys with
  | nil =>
    cases ys with
    | nil => rfl
    | cons y ys =>
      have hy : y.2 ≠ .hint := fun hy => by simpa [← hy] using (h 0 y.1).mpr (by simp [← hy])
      rw [List.takeWhile_cons_of_neg (by simpa using hy)]
      rfl
  | cons x xs ih =>
    by_cases hx : x.2 = .hint
    · have hhead := (h 0 x.1).mp (by simp [← hx])
      cases ys with
      | nil => cases hhead
      | cons y ys =>
        have hy : y = (x.1, .hint) := by simpa using hhead
        subst hy
        have hrest := ih fun k w => by simpa using h (k + 1) w
        rw [List.takeWhile_cons_of_pos (by simpa using hx), List.takeWhile_cons_of_pos (by simp),
          List.map_cons, List.map_cons, hrest]
    · rw [List.takeWhile_cons_of_neg (by simpa using hx)]
      cases ys with
      | nil => rfl
      | cons y ys =>
        have hy : y.2 ≠ .hint := fun hy => hx (by
          have := (h 0 y.1).mpr (by simp [← hy])
          simp only [List.getElem?_cons_zero, Option.some.injEq] at this
          rw [this])
        rw [List.takeWhile_cons_of_neg (by simpa using hy)]

/-- A word with a target is not a hint. -/
theorem Ok.not_hint_of_isJump (hl : l.Ok) {w : Instruction} {o : Origin}
    (hw : l.words[i]? = some (w, o)) (hj : w.op.isJump) : o ≠ .hint := by
  rintro rfl
  have hop := hl.hints i w .hint hw
  simp only [HintsFit, List.mem_cons, List.not_mem_nil, or_false] at hop
  rcases hop with h | h | h <;> rw [h] at hj <;> cases hj

theorem hints_setTarget (hl : l.Ok) (hjump : l.IsJump i) (j : Nat) :
    (l.setTarget i hi lo).hints j = l.hints j := by
  refine takeWhile_hint_congr fun k w => ?_
  rw [List.getElem?_drop, List.getElem?_drop, getElem?_setTarget]
  split
  · rename_i hij
    obtain ⟨w₀, o, hw₀, hj⟩ := hjump
    have ho := hl.not_hint_of_isJump hw₀ hj
    rw [← hij, hw₀]
    simp [ho]
  · rfl

/-- Giving a jump a target that is a boundary. -/
theorem Ok.setTarget (hl : l.Ok) (hjump : l.IsJump i) (hhi : hi < 256) (hlo : lo < 256)
    (ht : l.Boundary (256 * hi + lo)) : (l.setTarget i hi lo).Ok := by
  have hgrows : l.Grows (l.setTarget i hi lo) := setTarget_grows
  refine ⟨?_, hgrows.boundary 0 hl.start, ?_, ?_, ?_⟩
  · simpa [Layout.setTarget] using hl.lines
  · rintro ⟨w, o⟩ hx
    obtain ⟨j, hj⟩ := List.mem_iff_getElem?.mp hx
    rcases setTarget_cases hjump hj with hold | ⟨hop, hb, hc, w₀, hold, hop₀, ha⟩
    · exact hl.words _ (List.mem_of_getElem? hold)
    · exact (hl.words _ (List.mem_of_getElem? hold)).retarget hop₀ ha hop
        (hb ▸ hhi) (hc ▸ hlo)
  · rintro ⟨w, o⟩ hx hj
    obtain ⟨j, hget⟩ := List.mem_iff_getElem?.mp hx
    refine hgrows.boundary _ ?_
    rcases setTarget_cases hjump hget with hold | ⟨-, hb, hc, -⟩
    · exact hl.jumps _ (List.mem_of_getElem? hold) hj
    · simpa only [Instruction.bx, hb, hc] using ht
  · intro j w o hget
    rw [hints_setTarget hl hjump]
    rcases setTarget_cases hjump hget with hold | ⟨hop, -, -, w₀, hold, hop₀, -⟩
    · exact hl.hints j w o hold
    · exact (hl.hints j w₀ o hold).retarget hop₀ hop

end SetTarget


end Layout

namespace FunctionProto

def layout (p : FunctionProto) : Layout where
  words := p.code.zip p.origins
  lines := p.lines
  regs := p.regCount
  constants := p.constants
  nested := p.nested

/-- A function and the functions inside it are well formed. -/
inductive WellFormed : FunctionProto → Prop
  | mk {p : FunctionProto} : p.origins.length = p.code.length → p.layout.Ok →
      p.arity ≤ p.regCount → p.regCount ≤ 255 → (∀ q ∈ p.nested, WellFormed q) → WellFormed p

end FunctionProto

end Look
