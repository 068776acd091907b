/-
What an instruction can do to the stacks.

Most instructions work inside their own frame: they may move its instruction
pointer, write its registers and add registers, and the frames below and the
handlers stay.  `Local` is that relation, and `execPlain_local` says that
every instruction other than the calls, the returns and the handler
instructions follows it.
-/
import Look.Vm.Run

namespace Look

open Exec

/-- The addresses, other than the next one, at which the frame of an instruction
`w` at `ip` can go on. -/
inductive FunctionProto.Target (p : FunctionProto) (ip : Nat) (w : Instruction) : Nat → Prop
  | jump : w.op ∈ [.jump, .jumpIfFalse, .jumpIfTrue, .jumpIfNull, .forStep] →
      Target p ip w w.bx
  | call : w.op ∈ [.call, .tailCall, .callBuiltin] → (p.nopHint (ip + 1)).isSome →
      Target p ip w (ip + 2)
  | fields {h : Instruction} : w.op = .newStruct → p.nopHint (ip + 1) = some h →
      Target p ip w (ip + 2 + h.a)
  | captures : w.op = .makeClosure →
      Target p ip w (ip + 1 + (p.captureHints (ip + 1)).length)

/-! ## The protos of the heap -/

/-- Every closure of a world runs a proto with `P`. -/
def World.Protos (P : FunctionProto → Prop) (w : World) : Prop := ∀ c ∈ w.closures, P c.proto

namespace World.Protos

variable {P : FunctionProto → Prop} {w : World}

theorem newClosure {c : Closure} (hw : w.Protos P) (hc : P c.proto) :
    (w.newClosure c).2.Protos P := by
  intro d hd
  rcases List.mem_append.mp hd with hd | hd
  · exact hw d hd
  · rw [List.mem_singleton.mp hd]
    exact hc

theorem mapWorld {f : Value → World → Value × World}
    (hf : ∀ v w, w.Protos P → (f v w).2.Protos P) (vs : List Value) :
    ∀ {w : World}, w.Protos P → (Look.mapWorld f vs w).2.Protos P := by
  induction vs with
  | nil => exact fun hw => hw
  | cons v rest ih => exact fun hw => ih (hf v _ hw)

theorem deepCloneAux (fuel : Nat) : ∀ (arrs clos : List Nat) (v : Value) (w : World),
    w.Protos P → (deepCloneAux fuel arrs clos v w).2.Protos P := by
  induction fuel with
  | zero =>
    intro arrs clos v w hw
    cases v <;> exact hw
  | succ fuel ih =>
    intro arrs clos v w hw
    cases v with
    | array p =>
      simp only [Look.deepCloneAux]
      split
      · exact hw
      · exact mapWorld (ih _ _) _ hw
    | bytecodeFn p =>
      simp only [Look.deepCloneAux]
      cases hc : w.closures[p]? with
      | none => exact hw
      | some c =>
        simp only
        split
        · exact hw
        · refine newClosure (mapWorld ?_ _ hw) (hw c (List.mem_of_getElem? hc))
          intro v w hw
          split
          · exact hw
          · exact ih _ _ _ _ hw
    | _ => exact hw

theorem deepClone (v : Value) (w : World) (hw : w.Protos P) : (deepClone v w).2.Protos P :=
  deepCloneAux _ _ _ _ _ hw

theorem structDefaults (defn : List Value) (w : World) (hw : w.Protos P) :
    (Instr.structDefaults defn w).2.Protos P := by
  fun_induction Instr.structDefaults defn w with
  | case1 f d rest w d' w' hd fields w'' hrest ih =>
    rw [hrest] at ih
    refine ih ?_
    split at hd
    · have hw' := congrArg Prod.snd hd
      rw [← show _ = w' from hw']
      exact deepClone _ _ hw
    · cases hd
      exact hw
  | case2 w l hl => exact hw

theorem arraySet [DoubleOps] (w : World) (arr key val : Value) (hw : w.Protos P) :
    (arraySet w arr key val).2.1.Protos P := by
  unfold Look.arraySet
  have hnew : (if arr = .none then w.newArray [] else (arr, w)).2.Protos P := by
    split <;> exact hw
  revert hnew
  generalize (if arr = .none then w.newArray [] else (arr, w)) = q
  intro hnew
  simp only
  split
  · exact hnew
  · split <;> exact hnew
  · exact hnew

theorem taskCaptures (isCell : List Bool) (vs : List Value) :
    ∀ (i : Nat) {w : World}, w.Protos P → (Instr.taskCaptures isCell i vs w).2.Protos P := by
  induction vs with
  | nil => exact fun _ _ hw => hw
  | cons v rest ih =>
    intro i w hw
    simp only [Instr.taskCaptures]
    refine ih (i + 1) ?_
    split
    · exact deepClone _ _ hw
    · exact hw

theorem taskClosure (p : Nat) (w : World) (hw : w.Protos P) :
    (Instr.taskClosure p w).2.Protos P := by
  unfold Instr.taskClosure
  split
  · exact hw
  · rename_i c hc
    split
    · exact newClosure (taskCaptures _ _ 0 hw) (hw c (List.mem_of_getElem? hc))
    · exact hw

end World.Protos

/-! ## What stays inside a frame -/

/-- The stacks are the same, except that the top frame may have moved to an
address in `T` and there may be more registers.  The protos of the heap keep
having `P`. -/
structure Local (T : Nat → Prop) (P : FunctionProto → Prop) (s s' : VmState) : Prop where
  frames : s'.vm.callStack = s.vm.callStack ∨
    ∃ ip, T ip ∧ s'.vm.callStack = s.vm.callStack.modifyHead fun f => { f with ip := ip }
  size : s.vm.regs.length ≤ s'.vm.regs.length
  tries : s'.vm.tryStack = s.vm.tryStack
  floor : s'.vm.tryFloor = s.vm.tryFloor
  protos : s.world.Protos P → s'.world.Protos P

namespace Local

variable {T : Nat → Prop} {P : FunctionProto → Prop} {s s₁ s₂ s₃ : VmState}

theorem refl (s : VmState) : Local T P s s := ⟨.inl rfl, Nat.le_refl _, rfl, rfl, id⟩

theorem trans (h : Local T P s₁ s₂) (h' : Local T P s₂ s₃) : Local T P s₁ s₃ where
  frames := by
    rcases h'.frames with h₃ | ⟨ip, hip, h₃⟩
    · rw [h₃]
      exact h.frames
    · refine .inr ⟨ip, hip, ?_⟩
      rw [h₃]
      rcases h.frames with h₂ | ⟨ip', -, h₂⟩
      · rw [h₂]
      · rw [h₂]
        cases s₁.vm.callStack with
        | nil => rfl
        | cons f rest => rfl
  size := Nat.le_trans h.size h'.size
  tries := h'.tries.trans h.tries
  floor := h'.floor.trans h.floor
  protos := h'.protos ∘ h.protos

/-- `Local` as what the steps of an instruction may do, whether they return or
throw. -/
def moves (T : Nat → Prop) (P : FunctionProto → Prop) : Moves VmState Halt where
  rel := Local T P
  err := fun _ => Local T P
  refl := refl
  trans := trans
  absorb := trans

end Local

namespace Instr

variable {α : Type} {T : Nat → Prop} {P : FunctionProto → Prop}

theorem throw_local (h : Halt) : Follows (Local.moves T P) (throw h : Instr α) :=
  Follows.throw Local.refl

theorem orUb_local (o : Option α) : Follows (Local.moves T P) (orUb o) := by
  cases o with
  | none => exact throw_local _
  | some a => exact Follows.pure a

theorem deref_local (o : Option α) : Follows (Local.moves T P) (deref o) := by
  cases o with
  | none => exact throw_local _
  | some a => exact Follows.pure a

theorem fault_local (e : Fault) : Follows (Local.moves T P) (fault e : Instr α) := by
  cases e with
  | error m => exact throw_local _
  | stackExhausted => exact throw_local _

theorem ofExcept_local (e : Except Fault α) : Follows (Local.moves T P) (ofExcept e) := by
  cases e with
  | error e => exact fault_local e
  | ok a => exact Follows.pure a

theorem vmError_local (m : String) : Follows (Local.moves T P) (vmError m : Instr α) := throw_local _

theorem arrays_local : Follows (Local.moves T P) arrays := Follows.gets _

theorem onWorld_local {f : World → α × World} (h : ∀ w, w.Protos P → (f w).2.Protos P) :
    Follows (Local.moves T P) (onWorld f) :=
  fun s => ⟨⟨.inl rfl, Nat.le_refl _, rfl, rfl, h s.world⟩, trivial⟩

theorem modifyWorld_local {f : VmState → World}
    (h : ∀ s : VmState, s.world.Protos P → (f s).Protos P) :
    Follows (Local.moves T P) (modify fun s => { s with world := f s }) :=
  Follows.modify fun s => ⟨.inl rfl, Nat.le_refl _, rfl, rfl, h s⟩

theorem modifyVm_local {f : Vm → Vm} (hc : ∀ vm, (f vm).callStack = vm.callStack)
    (hr : ∀ vm, vm.regs.length ≤ (f vm).regs.length) (ht : ∀ vm, (f vm).tryStack = vm.tryStack)
    (hf : ∀ vm, (f vm).tryFloor = vm.tryFloor) : Follows (Local.moves T P) (modifyVm f) :=
  Follows.modify fun s => ⟨.inl (hc s.vm), hr s.vm, ht s.vm, hf s.vm, id⟩

theorem getReg_local (i : Nat) : Follows (Local.moves T P) (getReg i) :=
  Follows.bind (Follows.gets _) fun _ => orUb_local _

theorem setReg_local (i : Nat) (v : Value) : Follows (Local.moves T P) (setReg i v) := by
  refine Follows.bind (Follows.gets _) fun n => Follows.ite (fun _ => ?_) fun _ => throw_local _
  exact modifyVm_local (fun _ => rfl) (fun vm => by simp) (fun _ => rfl) fun _ => rfl

theorem setIp_local {ip : Nat} (h : T ip) : Follows (Local.moves T P) (setIp ip) :=
  Follows.modify fun _ => ⟨.inr ⟨ip, h, rfl⟩, Nat.le_refl _, rfl, rfl, id⟩

theorem skipNop_local {proto : FunctionProto} {ip : Nat}
    (h : (proto.nopHint ip).isSome → T (ip + 1)) : Follows (Local.moves T P) (skipNop proto ip) :=
  Follows.ite (fun hint => setIp_local (h hint)) fun _ => Follows.pure _

theorem mapEach_local {β : Type} {m : β → Instr α} (h : ∀ b, Follows (Local.moves T P) (m b))
    (l : List β) : Follows (Local.moves T P) (mapEach l m) := by
  induction l with
  | nil => exact Follows.pure _
  | cons b rest ih =>
    exact Follows.bind (h b) fun _ => Follows.bind ih fun _ => Follows.pure _

/-! ## Globals, arrays and structs -/

theorem constStr_local (proto : FunctionProto) (i : Nat) :
    Follows (Local.moves T P) (constStr proto i) :=
  Follows.bind (orUb_local _) fun _ => Follows.pure _

theorem cachedSlot_local (proto : FunctionProto) (i : Nat) :
    Follows (Local.moves T P) (cachedSlot proto i) :=
  Follows.bind (orUb_local _) fun _ => Follows.gets _

theorem pinSlot_local (proto : FunctionProto) (i : Nat) (name : String) :
    Follows (Local.moves T P) (pinSlot proto i name) :=
  modifyVm_local (fun _ => rfl) (fun _ => Nat.le_refl _) (fun _ => rfl) fun _ => rfl

theorem setGlobal_local (name : String) (v : Value) : Follows (Local.moves T P) (setGlobal name v) :=
  modifyVm_local (fun _ => rfl) (fun _ => Nat.le_refl _) (fun _ => rfl) fun _ => rfl

theorem markIsolated_local (name : String) : Follows (Local.moves T P) (markIsolated name) :=
  modifyVm_local (fun _ => rfl) (fun _ => Nat.le_refl _) (fun _ => rfl) fun _ => rfl

theorem isolateGlobal_local (name : String) (v : Value) :
    Follows (Local.moves T P) (isolateGlobal name v) := by
  refine Follows.bind (Follows.gets _) fun s => Follows.ite (fun _ => ?_) fun _ => Follows.pure _
  refine Follows.bind (markIsolated_local name) fun _ =>
    Follows.ite (fun _ => ?_) fun _ => Follows.pure _
  exact Follows.bind (onWorld_local (World.Protos.deepClone v)) fun v' =>
    Follows.bind (setGlobal_local name v') fun _ => Follows.pure _

theorem loadGlobal_local (m : Machine) (proto : FunctionProto) (dest ni : Nat) :
    Follows (Local.moves T P) (loadGlobal m proto dest ni) := by
  refine Follows.bind (cachedSlot_local proto ni) fun slot => ?_
  cases slot with
  | some name => exact Follows.bind (Follows.gets _) fun _ => setReg_local _ _
  | none =>
    refine Follows.bind (constStr_local proto ni) fun name => Follows.bind (Follows.gets _) ?_
    intro v
    cases v with
    | some v =>
      exact Follows.bind (isolateGlobal_local name v) fun v =>
        Follows.bind (pinSlot_local proto ni name) fun _ => setReg_local dest v
    | none => exact Follows.ite (fun _ => vmError_local _) fun _ => setReg_local _ _

theorem storeGlobal_local (proto : FunctionProto) (src ni : Nat) :
    Follows (Local.moves T P) (storeGlobal proto src ni) := by
  refine Follows.bind (cachedSlot_local proto ni) fun slot => ?_
  cases slot with
  | some name => exact Follows.bind (getReg_local src) fun v => setGlobal_local name v
  | none =>
    refine Follows.bind (constStr_local proto ni) fun name => ?_
    refine Follows.bind (getReg_local src) fun v => Follows.bind (setGlobal_local name v) fun _ => ?_
    refine Follows.bind (Follows.gets _) fun iso => Follows.ite (fun _ => ?_) fun _ => ?_
    · exact Follows.bind (markIsolated_local name) fun _ => pinSlot_local proto ni name
    · exact pinSlot_local proto ni name

theorem pushArray_local (arr : Value) (vs : List Value) :
    Follows (Local.moves T P) (pushArray arr vs) := by
  unfold pushArray
  split
  · exact modifyWorld_local fun _ hw => hw
  · exact Follows.pure _

theorem checkFields_local (proto : FunctionProto) (sname : String) (defn : List Value) (n : Nat) :
    ∀ ip, Follows (Local.moves T P) (checkFields proto sname defn ip n) := by
  induction n with
  | zero => exact fun _ => Follows.pure _
  | succ n ih =>
    intro ip
    refine Follows.bind (orUb_local _) fun w => Follows.bind (constStr_local proto w.bx) ?_
    intro name
    refine Follows.ite (fun _ => ?_) fun _ => ih (ip + 1)
    exact Follows.bind (vmError_local _) fun _ => ih (ip + 1)

theorem structFields_local (proto : FunctionProto) (sname : String) (ip count : Nat) :
    Follows (Local.moves T P) (structFields proto sname ip count) := by
  refine Follows.bind (Follows.gets _) fun defn => ?_
  split
  · refine Follows.bind (Follows.gets _) fun fields => ?_
    exact Follows.bind (checkFields_local proto sname fields _ _) fun _ =>
      onWorld_local (World.Protos.structDefaults fields)
  · exact Follows.pure _

theorem newStruct_local {proto : FunctionProto} {ip : Nat} (dest ni : Nat)
    (h : ∀ w, proto.nopHint ip = some w → T (ip + 1 + w.a)) :
    Follows (Local.moves T P) (newStruct proto ip dest ni) := by
  refine Follows.bind (constStr_local proto ni) fun sname => ?_
  refine Follows.bind (structFields_local proto sname _ _) fun fields => ?_
  refine Follows.bind (onWorld_local fun _ hw => hw) fun v => ?_
  refine Follows.bind (setReg_local dest v) fun _ => ?_
  refine Follows.ite (fun hint => ?_) fun _ => Follows.pure _
  obtain ⟨w, hw⟩ := Option.isSome_iff_exists.mp hint
  rw [hw]
  exact setIp_local (h w hw)

theorem forStep_local {base a target : Nat} (h : T target) :
    Follows (Local.moves T P) (forStep base a target) := by
  refine Follows.bind (getReg_local _) fun arr => Follows.bind (getReg_local _) fun idx => ?_
  split
  · refine Follows.bind (Follows.gets _) fun vec => ?_
    refine Follows.ite (fun _ => Follows.ite (fun _ => setIp_local h) fun _ => ?_)
      fun _ => Follows.ite (fun _ => setIp_local h) fun _ => ?_
    · refine Follows.bind (deref_local _) fun k => Follows.bind (setReg_local _ k) fun _ => ?_
      refine Follows.bind (deref_local _) fun v => Follows.bind (setReg_local _ v) fun _ => ?_
      exact setReg_local _ _
    · refine Follows.bind (deref_local _) fun v => Follows.bind (setReg_local _ v) fun _ => ?_
      exact Follows.bind (setReg_local _ _) fun _ => setReg_local _ _
  · exact setIp_local h

theorem makeClosure_local {proto : FunctionProto} {ip : Nat} (base : Nat) (w : Instruction)
    (h : T (ip + (proto.captureHints ip).length)) (hp : ∀ q ∈ proto.nested, P q) :
    Follows (Local.moves T P) (makeClosure proto ip base w) := by
  unfold makeClosure
  cases hq : proto.nested[w.b + 256 * w.c]? with
  | none => exact fun s => Local.refl s
  | some nested =>
    show Follows _ (do
      let captures ← mapEach (proto.captureHints ip) fun r => getReg (base + r)
      setIp (ip + (proto.captureHints ip).length)
      let v ← onWorld fun w => w.newClosure { proto := nested, captures := captures }
      setReg (base + w.a) v)
    refine Follows.bind (mapEach_local (fun r => getReg_local _) _) fun captures => ?_
    refine Follows.bind (setIp_local h) fun _ => ?_
    refine Follows.bind (onWorld_local fun w hw => ?_) fun v => setReg_local _ v
    exact World.Protos.newClosure hw (hp _ (List.mem_of_getElem? hq))

theorem channelAt_local (v : Value) (fn : String) : Follows (Local.moves T P) (channelAt v fn) := by
  unfold channelAt
  split
  · refine Follows.bind (Follows.gets _) fun ch => Follows.bind (deref_local ch) fun _ => ?_
    exact Follows.pure _
  · exact vmError_local _

theorem setChannel_local (p : Nat) (ch : Channel) : Follows (Local.moves T P) (setChannel p ch) :=
  modifyWorld_local fun _ hw => hw

theorem chanRecv_local (v : Value) : Follows (Local.moves T P) (chanRecv v) := by
  refine Follows.bind (channelAt_local v _) fun ⟨p, ch⟩ => ?_
  simp only
  split
  · exact Follows.ite (fun _ => Follows.pure _) fun _ => throw_local _
  · exact Follows.bind (setChannel_local _ _) fun _ => Follows.pure _

theorem chanSend_ensures (target v : Value) (s : VmState) :
    Ensures (Local.moves T P) (chanSend target v) s fun next _ => ∀ v, next ≠ .ret v := by
  refine Ensures.bind (channelAt_local target _ s) fun ⟨p, ch⟩ s' _ _ => ?_
  refine Ensures.ite (fun _ => Ensures.throw_bind (Local.refl s')) fun _ => ?_
  refine Ensures.ite (fun _ => Ensures.throw_bind (Local.refl s')) fun _ => ?_
  refine Ensures.bind (onWorld_local (World.Protos.deepClone v) s') fun v s₁ _ _ => ?_
  refine Ensures.bind (setChannel_local _ _ s₁) fun _ s₂ _ _ => Ensures.pure ?_
  split <;> exact fun v => Next.noConfusion

theorem parallelCall_ensures (m : Machine) (v : Value) (s : VmState) :
    Ensures (Local.moves T P) (parallelCall m v) s fun next _ => ∀ v, next ≠ .ret v := by
  unfold parallelCall
  split
  · rename_i p
    refine Ensures.gets_bind (Ensures.ite (fun _ => Ensures.throw_bind (Local.refl s)) fun _ => ?_)
    have hcount : Local T P s { s with world :=
        { s.world with activeTasks := s.world.activeTasks + 1 } } :=
      ⟨.inl rfl, Nat.le_refl _, rfl, rfl, id⟩
    refine Ensures.bind (Ensures.modify hcount trivial) fun _ s₁ _ (_ : True) => ?_
    refine Ensures.bind (onWorld_local (World.Protos.taskClosure p) s₁) fun v s₂ _ _ => ?_
    exact Ensures.pure fun v => Next.noConfusion
  · exact Ensures.throw (Local.refl s)

theorem getRegs_local (n : Nat) : ∀ base, Follows (Local.moves T P) (getRegs base n) := by
  induction n with
  | zero => exact fun _ => Follows.pure _
  | succ n ih =>
    exact fun base => Follows.bind (getReg_local base) fun _ =>
      Follows.bind (ih (base + 1)) fun _ => Follows.pure _

theorem setRegs_local (vs : List Value) : ∀ base, Follows (Local.moves T P) (setRegs base vs) := by
  induction vs with
  | nil => exact fun _ => Follows.pure _
  | cons v rest ih => exact fun base => Follows.bind (setReg_local base v) fun _ => ih (base + 1)

theorem bindArgs_local (proto : FunctionProto) (base : Nat) (args : List Value) :
    Follows (Local.moves T P) (bindArgs proto base args) := by
  refine Follows.ite (fun _ => ?_) fun _ => setRegs_local _ _
  refine Follows.bind (setRegs_local _ _) fun _ => ?_
  refine Follows.bind (onWorld_local fun _ hw => hw) fun v => ?_
  exact Follows.ite (fun _ => setReg_local _ _) fun _ => Follows.pure _

theorem callBuiltin_ensures (m : Machine) {proto : FunctionProto} {ip base : Nat}
    {w : Instruction} (h : (proto.nopHint ip).isSome → T (ip + 1)) (s : VmState) :
    Ensures (Local.moves T P) (callBuiltin m proto ip base w) s
      fun next _ => ∀ v, next ≠ .ret v := by
  refine Ensures.bind (skipNop_local h s) fun _ s₁ _ _ => ?_
  simp only
  split
  · exact Ensures.throw (Local.refl s₁)
  · refine Ensures.bind (getRegs_local _ _ s₁) fun args s₂ _ _ => ?_
    split
    · exact Ensures.throw (Local.refl s₂)
    · exact Ensures.pure fun v => Next.noConfusion

/-- `notCallable` never returns. -/
theorem notCallable_ensures (proto : FunctionProto) (v : Value) (cname : Nat) (s : VmState)
    (Q : α → VmState → Prop) :
    Ensures (Local.moves T P) (notCallable proto v cname) s Q := by
  refine Ensures.ite (fun _ => Ensures.throw_bind (Local.refl s)) fun _ => ?_
  refine Ensures.bind (constStr_local proto _ s) fun name s' _ _ => ?_
  refine Ensures.ite (fun _ => Ensures.throw_bind (Local.refl s')) fun _ => ?_
  exact Ensures.throw (Local.refl s')

/-! ## Calls -/

/-- Add `n` registers, which a new frame gets. -/
theorem resizeRegs_ensures {s : VmState} {b : Nat} (n : Nat) (h : b = s.vm.regs.length) :
    Ensures (Local.moves T P) (resizeRegs (b + n)) s fun _ s' => s'.vm.regs.length = b + n := by
  subst h
  have hlen : ((s.vm.regs.take (s.vm.regs.length + n) ++
      List.replicate (s.vm.regs.length + n - s.vm.regs.length) Value.none)).length =
      s.vm.regs.length + n := by simp
  refine Ensures.modify ⟨.inl rfl, ?_, rfl, rfl, id⟩ hlen
  rw [hlen]
  exact Nat.le_add_right _ _

/-- The frame that a call opens: the code of a closure of the heap, on registers
of its own, with a register for the result. -/
structure Opened (P : FunctionProto → Prop) (s s' : VmState) (g : Frame) : Prop where
  proto : s.world.Protos P → P g.proto
  ip : g.ip = 0
  retReg : ∃ r, g.retReg = some r
  base : s.vm.regs.length ≤ g.base
  size : g.base + g.proto.regCount ≤ s'.vm.regs.length

theorem openFrame_ensures (base dest args argc p : Nat) (s : VmState) :
    Ensures (Local.moves T P) (openFrame base dest args argc p) s fun g s' =>
      Opened P s s' g ∧ g.retReg = some (base + dest) := by
  refine Ensures.gets_bind ?_
  cases hc : s.world.closures[p]? with
  | none => exact Ensures.throw_bind (Local.refl s)
  | some c =>
    refine Ensures.pure_bind (Ensures.gets_bind ?_)
    refine Ensures.bind (resizeRegs_ensures c.proto.regCount rfl) fun _ s₁ _ hlen => ?_
    refine Ensures.bind (getRegs_local _ _ s₁) fun vs s₂ h₂ _ => ?_
    refine Ensures.bind (bindArgs_local c.proto _ vs s₂) fun _ s₃ h₃ _ => Ensures.gets_bind ?_
    have hopened : Opened P s s₃
        { closure := c, ip := 0, base := s.vm.regs.length, retReg := some (base + dest),
          argc := argc } := {
      proto := fun hw => hw c (List.mem_of_getElem? hc)
      ip := rfl
      retReg := ⟨_, rfl⟩
      base := Nat.le_refl _
      size := hlen ▸ Nat.le_trans h₂.size h₃.size }
    simp only
    split
    · exact Ensures.throw_bind (Local.refl s₃)
    · exact Ensures.pure ⟨hopened, rfl⟩

/-- Opening a frame after moves inside the calling one. -/
theorem Opened.of_local {s s₁ s₂ : VmState} {g : Frame} (hs : Local T P s s₁)
    (h : Opened P s₁ s₂ g) : Opened P s s₂ g where
  proto := fun hw => h.proto (hs.protos hw)
  ip := h.ip
  retReg := h.retReg
  base := Nat.le_trans hs.size h.base
  size := h.size

theorem call_ensures {proto : FunctionProto} {ip : Nat} (base : Nat) (w : Instruction)
    (h : (proto.nopHint ip).isSome → T (ip + 1)) (s : VmState) :
    Ensures (Local.moves T P) (call proto ip base w) s fun g s' => Opened P s s' g := by
  refine Ensures.bind (skipNop_local h s) fun _ s₁ h₁ _ => ?_
  refine Ensures.bind (getReg_local _ s₁) fun callee s₂ h₂ _ => ?_
  have hs := Local.trans h₁ h₂
  split
  · exact Ensures.mono (openFrame_ensures _ _ _ _ _ s₂) fun g s' _ hg => hg.1.of_local hs
  · exact notCallable_ensures proto _ _ s₂ _

theorem tailCall_ensures {proto : FunctionProto} {ip : Nat} (base : Nat) (w : Instruction)
    (h : (proto.nopHint ip).isSome → T (ip + 1)) (s : VmState) :
    Ensures (Local.moves T P) (tailCall proto ip base w) s fun g s' => Opened P s s' g := by
  refine Ensures.bind (skipNop_local h s) fun _ s₁ h₁ _ => ?_
  refine Ensures.bind (getReg_local _ s₁) fun callee s₂ h₂ _ => ?_
  have hs := Local.trans h₁ h₂
  split
  · exact Ensures.mono (openFrame_ensures _ _ _ _ _ s₂) fun g s' _ hg => hg.1.of_local hs
  · exact Ensures.throw (Local.refl s₂)

/-! ## Returns and handlers -/

/-- The top frame is gone, and its result is with the frame below, or outside
`run` when native code called it or there is no frame below. -/
structure Popped (s : VmState) (f : Frame) (rest : List Frame) (next : Next) (s' : VmState) :
    Prop where
  frames : s'.vm.callStack = rest
  size : s'.vm.regs.length = f.base
  tries : s'.vm.tryStack = s.vm.tryStack
  floor : s'.vm.tryFloor = s.vm.tryFloor
  world : s'.world = s.world
  next : (∃ v, next = .ret v) ∧ (f.retReg = none ∨ rest = []) ∨
    next = .dispatch ∧ rest ≠ [] ∧ ∃ r, f.retReg = some r

/-- The moves of an operation that has no exceptions. -/
def noExn : Moves VmState Halt where
  rel := fun _ _ => True
  err := fun h _ _ => h = .ub
  refl := fun _ => trivial
  trans := fun _ _ => trivial
  absorb := fun _ h => h

theorem getReg_ensures (i : Nat) (s : VmState) :
    Ensures noExn (getReg i) s fun _ s' => s' = s := by
  refine Ensures.gets_bind ?_
  cases s.vm.regs[i]? with
  | none => exact Ensures.throw rfl
  | some v => exact Ensures.pure rfl

theorem setReg_ensures (i : Nat) (v : Value) (s : VmState) :
    Ensures noExn (setReg i v) s fun _ s' =>
      s' = { s with vm := { s.vm with regs := s.vm.regs.set i v } } :=
  Ensures.gets_bind (Ensures.ite (fun _ => ⟨trivial, rfl⟩) fun _ => Ensures.throw rfl)

theorem popFrame_ensures {s : VmState} {f : Frame} {rest : List Frame} (v : Value)
    (hs : s.vm.callStack = f :: rest) :
    Ensures noExn (popFrame v) s fun next s' => Popped s f rest next s' := by
  have hlen : (s.vm.regs.take f.base ++
      List.replicate (f.base - s.vm.regs.length) Value.none).length = f.base := by
    simp only [List.length_append, List.length_take, List.length_replicate]
    omega
  refine Ensures.gets_bind ?_
  rw [hs]
  refine Ensures.bind (Ensures.modify trivial rfl) fun _ s₁ _ (h₁ : s₁ = _) => ?_
  refine Ensures.bind (Ensures.modify trivial rfl) fun _ s₂ _ (h₂ : s₂ = _) => ?_
  subst h₁
  cases hr : f.retReg with
  | none =>
    subst h₂
    exact Ensures.pure ⟨rfl, hlen, rfl, rfl, rfl, .inl ⟨⟨v, rfl⟩, .inl hr⟩⟩
  | some r =>
    refine Ensures.ite (fun hrest => ?_) fun hrest => ?_
    · subst h₂
      exact Ensures.pure
        ⟨rfl, hlen, rfl, rfl, rfl, .inl ⟨⟨v, rfl⟩, .inr (List.isEmpty_iff.mp hrest)⟩⟩
    · refine Ensures.bind (setReg_ensures r v s₂) fun _ s₃ _ h₃ => ?_
      subst h₂ h₃
      refine Ensures.pure ⟨rfl, ?_, rfl, rfl, rfl, .inr ⟨rfl, ?_, r, hr⟩⟩
      · rw [List.length_set]
        exact hlen
      · exact fun h => hrest (List.isEmpty_iff.mpr h)

/-- A handler of the innermost `run` has taken an exception: the frames above
the handler's frame are gone, and that frame goes on at the `catch`. -/
structure Handled (s : VmState) (e : TryCatchEntry) (rest : List TryCatchEntry) (s' : VmState) :
    Prop where
  tries : s.vm.tryStack = e :: rest
  above : s.vm.tryFloor < s.vm.tryStack.length
  tries' : s'.vm.tryStack = rest
  nonempty : s'.vm.callStack ≠ []
  frames : s'.vm.callStack =
    (unwindFrames e.frameDepth s.vm.callStack s.vm.regs).1.modifyHead
      fun f => { f with ip := e.catchIp }
  regs : s'.vm.regs = (unwindFrames e.frameDepth s.vm.callStack s.vm.regs).2
  floor : s'.vm.tryFloor = s.vm.tryFloor
  world : s'.world = s.world

theorem unwindFrames_fst (depth : Nat) (frames : List Frame) : ∀ regs,
    (unwindFrames depth frames regs).1 = frames.drop (frames.length - depth) := by
  induction frames with
  | nil => exact fun _ => (List.drop_nil ..).symm
  | cons f rest ih =>
    intro regs
    rw [unwindFrames]
    split
    · rename_i h
      rw [ih, List.length_cons, show rest.length + 1 - depth = (rest.length - depth) + 1 by
        simp only [List.length_cons] at h; omega, List.drop_succ_cons]
    · rename_i h
      rw [show (f :: rest).length - depth = 0 by omega, List.drop_zero]

theorem enterHandler_ensures {s : VmState} {v : Value} {e : TryCatchEntry}
    {rest : List TryCatchEntry} (ht : s.vm.tryStack = e :: rest)
    (ha : s.vm.tryFloor < s.vm.tryStack.length) :
    Ensures noExn (enterHandler v e rest) s fun _ s' => Handled s e rest s' := by
  refine Ensures.bind (Ensures.modify trivial rfl) fun _ s₁ _ (h₁ : s₁ = _) => ?_
  refine Ensures.gets_bind (Ensures.ite (fun _ => Ensures.throw_bind rfl) fun hne => ?_)
  refine Ensures.modify trivial ?_
  subst h₁
  refine ⟨ht, ha, rfl, fun h => hne ?_, rfl, rfl, rfl, rfl⟩
  simpa using h

/-- The moves of an instruction that starts in `s₀`: when it throws, it has not
left its frame. -/
def raising (T : Nat → Prop) (P : FunctionProto → Prop) (s₀ : VmState) : Moves VmState Halt where
  rel := fun _ _ => True
  err := fun h _ s' => ∀ e, h = .exn e → Local T P s₀ s'
  refl := fun _ => trivial
  trans := fun _ _ => trivial
  absorb := fun _ h => h

theorem raising_of_local {m : Instr α} {s₀ s : VmState} {Q : α → VmState → Prop}
    (hs : Local T P s₀ s) (h : Ensures (Local.moves T P) m s Q) :
    Ensures (raising T P s₀) m s fun a s' => Local T P s₀ s' ∧ Q a s' := by
  unfold Ensures at h ⊢
  split at h
  · exact ⟨trivial, hs.trans h.1, h.2⟩
  · exact fun _ _ => hs.trans h
  · trivial

theorem raising_of_noExn {m : Instr α} {s s₀ : VmState} {Q : α → VmState → Prop}
    (h : Ensures noExn m s Q) : Ensures (raising T P s₀) m s Q := by
  unfold Ensures at h ⊢
  split at h
  · exact h
  · rename_i hs
    intro e he
    cases (show Halt.exn e = .ub from he ▸ h)
  · trivial

/-- The moves of the bridge: it lets an exception through from where it was. -/
def bridging (e : Exn) (s₀ : VmState) : Moves VmState Halt where
  rel := fun _ _ => True
  err := fun h _ s' => h = .ub ∨ h = .exn e ∧ s' = s₀
  refl := fun _ => trivial
  trans := fun _ _ => trivial
  absorb := fun _ h => h

theorem bridging_of_noExn {m : Instr α} {s s₀ : VmState} {Q : α → VmState → Prop} {e : Exn}
    (h : Ensures noExn m s Q) : Ensures (bridging e s₀) m s Q := by
  unfold Ensures at h ⊢
  split at h
  · exact h
  · exact .inl h
  · trivial

/-- The bridge hands an exception to a handler, or lets it through. -/
theorem bridge_ensures (e : Exn) (s : VmState) :
    Ensures (bridging e s) (bridge e) s fun _ s' => ∃ h rest, Handled s h rest s' := by
  refine Ensures.gets_bind ?_
  cases caughtValue e with
  | none => exact Ensures.throw (.inr ⟨rfl, rfl⟩)
  | some v =>
    cases ht : s.vm.tryStack with
    | nil => exact Ensures.throw (.inr ⟨rfl, rfl⟩)
    | cons h rest =>
      refine Ensures.ite (fun _ => Ensures.throw (.inr ⟨rfl, rfl⟩)) fun ha => ?_
      rw [← ht] at ha
      refine Ensures.mono (bridging_of_noExn (enterHandler_ensures ht (Nat.not_le.mp ha))) ?_
      exact fun _ _ _ hh => ⟨h, rest, hh⟩

theorem throwValue_ensures [DoubleOps] (v : Value) (s : VmState) :
    Ensures (raising T P s) (throwValue v) s fun _ s' => ∃ e rest, Handled s e rest s' := by
  refine Ensures.bind (Ensures.modify trivial rfl) fun _ s₁ _ (h₁ : s₁ = _) => ?_
  have hs₁ : Local T P s s₁ := h₁ ▸ ⟨.inl rfl, Nat.le_refl _, rfl, rfl, id⟩
  have hthrow : Ensures (raising T P s) (do
      let _ ← ofExcept (v.toStr (← arrays))
      throw (.exn (.vmThrow v)) : Instr Unit) s₁ fun _ s' => ∃ e rest, Handled s e rest s' := by
    refine Ensures.mono (raising_of_local hs₁ (Q := fun _ _ => False) ?_) fun _ _ _ h => h.2.elim
    refine Ensures.gets_bind (Ensures.bind (ofExcept_local _ s₁) fun _ s₂ _ _ => ?_)
    exact Ensures.throw (Local.refl s₂)
  refine Ensures.gets_bind ?_
  split
  · exact hthrow
  · rename_i entry rest ht
    refine Ensures.ite (fun _ => hthrow) fun ha => ?_
    refine Ensures.mono (raising_of_noExn (enterHandler_ensures ht (Nat.not_le.mp ha))) ?_
    intro _ s' _ h
    subst h₁
    exact ⟨entry, rest, h.tries, h.above, h.tries', h.nonempty, h.frames, h.regs, h.floor, h.world⟩

/-! ## Entry -/

theorem setRegs_noExn (vs : List Value) : ∀ base, Follows noExn (setRegs base vs) := by
  induction vs with
  | nil => exact fun _ => Follows.pure _
  | cons v rest ih =>
    exact fun base => Follows.bind (fun s => (setReg_ensures base v s).mono fun _ _ _ _ => trivial)
      fun _ => ih (base + 1)

theorem bindArgs_noExn (proto : FunctionProto) (base : Nat) (args : List Value) :
    Follows noExn (bindArgs proto base args) := by
  refine Follows.ite (fun _ => ?_) fun _ => setRegs_noExn _ _
  refine Follows.bind (setRegs_noExn _ _) fun _ => Follows.bind (fun s => ⟨trivial, trivial⟩) ?_
  intro v
  refine Follows.ite (fun _ s => ?_) fun _ => Follows.pure _
  exact (setReg_ensures _ _ s).mono fun _ _ _ _ => trivial

/-- The frame of a closure that native code calls. -/
structure Entered (c : Closure) (s s' : VmState) (g : Frame) : Prop where
  depth : s.vm.callStack.length < Vm.maxCallDepth
  closure : g.closure = c
  ip : g.ip = 0
  retReg : g.retReg = none
  base : g.base = s.vm.regs.length
  size : g.base + g.proto.regCount ≤ s'.vm.regs.length
  frames : s'.vm.callStack = g :: s.vm.callStack
  tries : s'.vm.tryStack = s.vm.tryStack
  floor : s'.vm.tryFloor = s.vm.tryFloor
  protos : ∀ P, s.world.Protos P → s'.world.Protos P

/-- The moves of `prepareCall`: only the depth check throws. -/
def entering (s₀ : VmState) : Moves VmState Halt where
  rel := fun _ _ => True
  err := fun h _ s' => h = .ub ∨ Vm.maxCallDepth ≤ s₀.vm.callStack.length ∧ s' = s₀
  refl := fun _ => trivial
  trans := fun _ _ => trivial
  absorb := fun _ h => h

theorem prepareCall_ensures (c : Closure) (args : List Value) (s : VmState) :
    Ensures (entering s) (prepareCall c args) s fun _ s' => ∃ g, Entered c s s' g := by
  refine Ensures.gets_bind (Ensures.ite (fun hd => Ensures.throw_bind (.inr ⟨hd, rfl⟩)) ?_)
  intro hd
  refine Ensures.gets_bind (Ensures.modify_bind trivial (Ensures.modify_bind trivial ?_))
  generalize hs₁ : (VmState.mk _ _) = s₁
  unfold Ensures
  cases hm : bindArgs c.proto s.vm.regs.length args s₁ with
  | ok _ s₂ =>
    have hl : ∀ P, Local (fun _ => False) P s₁ s₂ := fun P => (bindArgs_local _ _ _).rel hm
    have hsize := (hl fun _ => True).size
    have hframes := (hl fun _ => True).frames.resolve_right fun ⟨_, h, _⟩ => h
    subst hs₁
    refine ⟨trivial, _, Nat.not_le.mp hd, rfl, rfl, rfl, rfl, ?_, hframes,
      (hl fun _ => True).tries, (hl fun _ => True).floor, fun P hw => (hl P).protos hw⟩
    refine Nat.le_trans ?_ hsize
    simp [Frame.proto]
  | error h s₂ => exact .inl ((bindArgs_noExn _ _ _).err hm)
  | timeout => trivial

/-! ## Dispatch -/

section Plain

variable [DoubleOps]

theorem storeElement_local (dst : Nat) (key val : Value) :
    Follows (Local.moves T P) (storeElement dst key val) := by
  refine Follows.bind (getReg_local dst) fun arr => Follows.bind
    (onWorld_local fun w hw => World.Protos.arraySet w arr key val hw) ?_
  rintro ⟨arr', e⟩
  refine Follows.bind (setReg_local dst arr') fun _ => ?_
  cases e with
  | none => exact Follows.pure _
  | some e => exact fault_local e

/-- Every instruction that goes on in its own frame, the handler instructions
apart, leaves the stacks alone. -/
theorem execPlain_local (m : Machine) {f : Frame} {w : Instruction}
    (hp : ∀ q ∈ f.proto.nested, P q) (hpush : w.op ≠ .tryPush) (hpop : w.op ≠ .tryPop) :
    Follows (Local.moves (f.proto.Target f.ip w) P) (execPlain m f w) := by
  unfold execPlain
  simp only
  split
  next => exact Follows.bind (orUb_local _) fun v => setReg_local _ v
  next => exact Follows.bind (orUb_local _) fun v => setReg_local _ v
  next => exact setReg_local _ _
  next => exact setReg_local _ _
  next => exact setReg_local _ _
  next => exact setReg_local _ _
  next => exact loadGlobal_local m _ _ _
  next => exact storeGlobal_local _ _ _
  next =>
    refine Follows.bind (getReg_local _) fun x => Follows.bind (getReg_local _) fun y => ?_
    refine Follows.bind arrays_local fun h => Follows.bind (ofExcept_local _) fun v => ?_
    exact setReg_local _ v
  next => exact Follows.bind (onWorld_local fun _ hw => hw) fun v => setReg_local _ v
  next => exact Follows.bind (onWorld_local fun _ hw => hw) fun v => setReg_local _ v
  next =>
    exact Follows.bind (getReg_local _) fun arr => Follows.bind (getReg_local _) fun v =>
      pushArray_local arr [v]
  next =>
    exact Follows.bind (getReg_local _) fun key => Follows.bind (getReg_local _) fun v =>
      storeElement_local _ key v
  next =>
    refine Follows.bind (getReg_local _) fun arr => ?_
    split
    · exact Follows.bind (getReg_local _) fun k => Follows.bind (getReg_local _) fun v =>
        pushArray_local _ [k, v]
    · exact throw_local _
  next =>
    refine Follows.bind (getReg_local _) fun v => Follows.ite (fun _ => ?_) fun _ => Follows.pure _
    refine Follows.bind (constStr_local _ _) fun name => Follows.bind (Follows.gets _) fun g => ?_
    exact Follows.ite (fun _ => vmError_local _) fun _ => Follows.pure _
  next hop => exact newStruct_local _ _ fun h hh => .fields hop hh
  next =>
    refine Follows.bind (constStr_local _ _) fun name => Follows.bind arrays_local fun h => ?_
    refine Follows.bind (getReg_local _) fun arr => Follows.bind (ofExcept_local _) fun v => ?_
    exact setReg_local _ v
  next =>
    exact Follows.bind (constStr_local _ _) fun name => Follows.bind (getReg_local _) fun v =>
      storeElement_local _ _ v
  next hop => exact setIp_local (.jump (by simp [hop]))
  next hop =>
    refine Follows.bind (getReg_local _) fun v => Follows.bind arrays_local fun h => ?_
    exact Follows.ite (fun _ => setIp_local (.jump (by simp [hop]))) fun _ => Follows.pure _
  next hop =>
    refine Follows.bind (getReg_local _) fun v => Follows.bind arrays_local fun h => ?_
    exact Follows.ite (fun _ => setIp_local (.jump (by simp [hop]))) fun _ => Follows.pure _
  next hop =>
    refine Follows.bind (getReg_local _) fun v => ?_
    exact Follows.ite (fun _ => setIp_local (.jump (by simp [hop]))) fun _ => Follows.pure _
  next hop => exact makeClosure_local _ w (.captures hop) hp
  next =>
    split
    · exact setReg_local _ _
    · exact vmError_local _
  next =>
    exact Follows.bind (getReg_local _) fun v => Follows.bind (setReg_local _ v) fun _ =>
      setReg_local _ _
  next hop => exact forStep_local (.jump (by simp [hop]))
  next hop => exact absurd hop hpush
  next hop => exact absurd hop hpop
  next => exact Follows.bind (Follows.gets _) fun v => setReg_local _ v
  next => exact setReg_local _ _
  next =>
    exact Follows.bind (getReg_local _) fun ch => Follows.bind (chanRecv_local ch) fun v =>
      setReg_local _ v
  next =>
    exact Follows.bind (getReg_local _) fun v => Follows.bind (channelAt_local v _) fun _ =>
      setChannel_local _ _
  next =>
    exact Follows.bind (getReg_local _) fun v => Follows.bind (channelAt_local v _) fun _ =>
      setReg_local _ _
  next => exact Follows.pure _
  next => exact Follows.pure _
  next =>
    refine Follows.bind arrays_local fun h => Follows.bind arrays_local fun h' => ?_
    split
    · refine Follows.bind (getReg_local _) fun x => Follows.bind (getReg_local _) fun y => ?_
      exact Follows.bind (ofExcept_local _) fun v => setReg_local _ v
    · refine Follows.bind (getReg_local _) fun x => Follows.bind (ofExcept_local _) fun v => ?_
      exact setReg_local _ v
    · exact vmError_local _

/-- What an instruction of the frame `f` does to the stacks when it completes.
The frame on the call stack points behind it already. -/
inductive Effect (P : FunctionProto → Prop) (f : Frame) (w : Instruction) (s : VmState) :
    Next → VmState → Prop
  | stay {next : Next} {s' : VmState} :
      w.op ∉ [.tryPush, .tryPop, .call, .tailCall, .ret, .retNull, .throw] →
      (∀ v, next ≠ .ret v) → Local (f.proto.Target f.ip w) P s s' → Effect P f w s next s'
  | tryPush : w.op = .tryPush → Effect P f w s .dispatch
      { s with vm := { s.vm with tryStack :=
        { catchIp := w.bx, frameDepth := s.vm.callStack.length, regBase := f.base } ::
          s.vm.tryStack } }
  | tryPop : w.op = .tryPop → Effect P f w s .dispatch
      { s with vm := { s.vm with tryStack := s.vm.tryStack.tail } }
  | call {s₁ : VmState} {g : Frame} : w.op ∈ [.call, .tailCall] →
      Local (f.proto.Target f.ip w) P s s₁ → Opened P s s₁ g →
      Effect P f w s .dispatch { s₁ with vm := { s₁.vm with callStack := g :: s₁.vm.callStack } }
  | ret {top : Frame} {rest : List Frame} {next : Next} {s' : VmState} :
      w.op ∈ [.ret, .retNull] → s.vm.callStack = top :: rest → Popped s top rest next s' →
      Effect P f w s next s'
  | handler {e : TryCatchEntry} {rest : List TryCatchEntry} {s' : VmState} : w.op = .throw →
      Handled s e rest s' → Effect P f w s .dispatch s'

theorem execPlain_ensures (m : Machine) {f : Frame} {w : Instruction} (s : VmState)
    (hp : ∀ q ∈ f.proto.nested, P q)
    (hop : w.op ∉ [.call, .tailCall, .ret, .retNull, .throw]) :
    Ensures (raising (f.proto.Target f.ip w) P s) (do execPlain m f w; return .dispatch) s
      (Effect P f w s) := by
  by_cases hpush : w.op = .tryPush
  · unfold execPlain
    rw [hpush]
    exact ⟨trivial, .tryPush hpush⟩
  by_cases hpop : w.op = .tryPop
  · unfold execPlain
    rw [hpop]
    exact ⟨trivial, .tryPop hpop⟩
  have hplain := execPlain_local m hp hpush hpop s
  refine Ensures.bind (raising_of_local (Local.refl s) hplain) fun _ s' _ h => Ensures.pure ?_
  refine .stay ?_ (fun v => Next.noConfusion) h.1
  simpa [hpush, hpop] using hop

/-- An instruction has one of the effects, and when it throws instead it has not
left its frame. -/
theorem exec_ensures (m : Machine) {f : Frame} {w : Instruction} {s : VmState}
    (hp : ∀ q ∈ f.proto.nested, P q) (hs : s.vm.callStack ≠ []) :
    Ensures (raising (f.proto.Target f.ip w) P s) (exec m f w) s (Effect P f w s) := by
  obtain ⟨top, rest, hs⟩ := List.exists_cons_of_ne_nil hs
  have hread : ∀ i, Ensures (raising (f.proto.Target f.ip w) P s) (getReg i) s
      fun _ s' => s' = s := fun i => raising_of_noExn (getReg_ensures i s)
  have hreturn : ∀ v, w.op ∈ [.ret, .retNull] → Ensures (raising (f.proto.Target f.ip w) P s)
      (popFrame v) s (Effect P f w s) := fun v hop =>
    Ensures.mono (raising_of_noExn (popFrame_ensures v hs)) fun _ _ _ h => .ret hop hs h
  have hlocal : ∀ {m : Instr Next},
      w.op ∉ [.tryPush, .tryPop, .call, .tailCall, .ret, .retNull, .throw] →
      Ensures (Local.moves (f.proto.Target f.ip w) P) m s (fun next _ => ∀ v, next ≠ .ret v) →
      Ensures (raising (f.proto.Target f.ip w) P s) m s (Effect P f w s) := fun hop hm =>
    Ensures.mono (raising_of_local (Local.refl s) hm) fun _ _ _ h => .stay hop h.2 h.1
  unfold exec
  split
  case _ hop =>
    have hcall := call_ensures (T := f.proto.Target f.ip w) (P := P) f.base w
      (fun h => .call (by simp [hop]) h) s
    refine Ensures.bind (raising_of_local (Local.refl s) hcall) fun g s₁ _ h => ?_
    exact ⟨trivial, .call (by simp [hop]) h.1 h.2⟩
  case _ hop =>
    have hcall := tailCall_ensures (T := f.proto.Target f.ip w) (P := P) f.base w
      (fun h => .call (by simp [hop]) h) s
    refine Ensures.bind (raising_of_local (Local.refl s) hcall) fun g s₁ _ h => ?_
    exact ⟨trivial, .call (by simp [hop]) h.1 h.2⟩
  case _ hop =>
    exact hlocal (by simp [hop]) (callBuiltin_ensures m (fun h => .call (by simp [hop]) h) s)
  case _ hop =>
    refine Ensures.bind (hread _) fun v s' _ hs' => ?_
    subst hs'
    exact hreturn v (by simp [hop])
  case _ hop => exact hreturn .none (by simp [hop])
  case _ hop =>
    refine Ensures.bind (hread _) fun v s' _ hs' => ?_
    subst hs'
    refine Ensures.bind (throwValue_ensures v s') fun _ s₁ _ ⟨e, rest, h⟩ => ?_
    exact Ensures.pure (.handler hop h)
  case _ hop =>
    refine hlocal (by simp [hop]) (Ensures.bind (getReg_local _ s) fun v s' _ _ => ?_)
    exact parallelCall_ensures m v s'
  case _ hop =>
    refine hlocal (by simp [hop]) (Ensures.bind (getReg_local _ s) fun target s₁ _ _ => ?_)
    exact Ensures.bind (getReg_local _ s₁) fun v s₂ _ _ => chanSend_ensures target v s₂
  case _ =>
    refine execPlain_ensures m s hp ?_
    simp_all

/-- The dispatch loop has read the instruction of a frame. -/
def advanceIp (s : VmState) (f : Frame) (rest : List Frame) : VmState :=
  { s with vm := { s.vm with callStack := { f with ip := f.ip + 1 } :: rest } }

/-- What one turn of the dispatch loop does when it completes. -/
inductive Turn (P : FunctionProto → Prop) (s : VmState) : Next → VmState → Prop
  | idle : s.vm.callStack = [] → Turn P s (.ret .none) s
  | ended {f : Frame} {rest : List Frame} {next : Next} {s' : VmState} :
      s.vm.callStack = f :: rest → f.proto.code[f.ip]? = none → Popped s f rest next s' →
      Turn P s next s'
  | executed {f : Frame} {rest : List Frame} {w : Instruction} {next : Next} {s' : VmState} :
      s.vm.callStack = f :: rest → f.proto.code[f.ip]? = some w →
      Effect P f w (advanceIp s f rest) next s' → Turn P s next s'

/-- What one turn of the dispatch loop has done when it throws. -/
structure Raised (P : FunctionProto → Prop) (s s' : VmState) (f : Frame) (rest : List Frame)
    (w : Instruction) : Prop where
  frames : s.vm.callStack = f :: rest
  fetched : f.proto.code[f.ip]? = some w
  moved : Local (f.proto.Target f.ip w) P (advanceIp s f rest) s'

/-- Every function inside the proto of a frame has `P`. -/
def Covered (P : FunctionProto → Prop) (s : VmState) : Prop :=
  ∀ f ∈ s.vm.callStack, ∀ q ∈ f.proto.nested, P q

theorem fetchExec_eq {m : Machine} {s : VmState} {f : Frame} {rest : List Frame} {w : Instruction}
    (hs : s.vm.callStack = f :: rest) (hw : f.proto.code[f.ip]? = some w) :
    fetchExec m s = exec m f w (advanceIp s f rest) := by
  unfold fetchExec
  rw [bind_apply]
  simp only [gets_apply, hs, hw]
  rw [bind_apply]
  simp only [setIp, modifyTop, modifyVm, modify_apply, hs, List.modifyHead_cons]
  rfl

theorem fetchExec_ended {m : Machine} {s : VmState} {f : Frame} {rest : List Frame}
    (hs : s.vm.callStack = f :: rest) (hw : f.proto.code[f.ip]? = none) :
    fetchExec m s = popFrame .none s := by
  unfold fetchExec
  rw [bind_apply]
  simp only [gets_apply, hs, hw]

theorem fetchExec_ok {m : Machine} {s s' : VmState} {next : Next} (hp : Covered P s)
    (h : fetchExec m s = .ok next s') : Turn P s next s' := by
  cases hs : s.vm.callStack with
  | nil =>
    unfold fetchExec at h
    rw [bind_apply] at h
    simp only [gets_apply, hs] at h
    cases h
    exact .idle hs
  | cons f rest =>
    cases hw : f.proto.code[f.ip]? with
    | none =>
      rw [fetchExec_ended hs hw] at h
      exact .ended hs hw ((popFrame_ensures .none hs).of_ok h).2
    | some w =>
      rw [fetchExec_eq hs hw] at h
      have hf := hp f (hs ▸ List.mem_cons_self)
      exact .executed hs hw ((exec_ensures m hf (List.cons_ne_nil _ _)).of_ok h).2

theorem fetchExec_exn {m : Machine} {s s' : VmState} {e : Exn} (hp : Covered P s)
    (h : fetchExec m s = .error (.exn e) s') : ∃ f rest w, Raised P s s' f rest w := by
  cases hs : s.vm.callStack with
  | nil =>
    unfold fetchExec at h
    rw [bind_apply] at h
    simp only [gets_apply, hs] at h
    cases h
  | cons f rest =>
    cases hw : f.proto.code[f.ip]? with
    | none =>
      rw [fetchExec_ended hs hw] at h
      cases (popFrame_ensures .none hs).of_error h
    | some w =>
      rw [fetchExec_eq hs hw] at h
      have hf := hp f (hs ▸ List.mem_cons_self)
      have hexn := (exec_ensures m hf (List.cons_ne_nil _ _)).of_error h
      exact ⟨f, rest, w, hs, hw, hexn e rfl⟩

end Plain

end Instr

end Look
