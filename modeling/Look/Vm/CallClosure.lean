/-
What `call_closure` leaves behind when an exception leaves it.

`call_closure` pushes a frame, and every `CALL` under it pushes one more.  The
guard in `run` puts the handlers and the floor back, and nothing puts the frames
back: a handler drops the frames above its own, but an exception that leaves
`run` has no handler there.  So the frame that `call_closure` pushed is still on
the call stack when an exception comes out, and the one exception that leaves
the machine as it was is the depth check, which throws before the push.

`Running` is the invariant.  Each activation of `run` has an entry frame, which
native code called, and the handlers above the floor of an activation belong to
frames above its entry frame.  A return pops an entry frame only when it ends
the activation, and a handler never unwinds past it.
-/
import Mathlib.Logic.Relation
import Look.Vm.Effect

namespace Look

open Exec Instr

/-- The stacks of a machine are what they were. -/
structure Vm.Restored (vm vm' : Vm) : Prop where
  callStack : vm'.callStack = vm.callStack
  size : vm'.regs.length = vm.regs.length
  tryStack : vm'.tryStack = vm.tryStack
  tryFloor : vm'.tryFloor = vm.tryFloor

/-! ## Entry frames and handlers -/

/-- The frame at depth `e`, counted from the bottom, is one that native code
called. -/
def EntryAt (frames : List Frame) (e : Nat) : Prop :=
  ∃ top f below, frames = top ++ f :: below ∧ below.length = e ∧ f.retReg = none

namespace EntryAt

variable {f : Frame} {frames rest : List Frame} {e : Nat}

theorem lt_length (h : EntryAt frames e) : e < frames.length := by
  obtain ⟨top, f, below, rfl, rfl, -⟩ := h
  simp only [List.length_append, List.length_cons]
  omega

theorem cons (h : EntryAt frames e) (f : Frame) : EntryAt (f :: frames) e := by
  obtain ⟨top, g, below, rfl, hlen, hret⟩ := h
  exact ⟨f :: top, g, below, rfl, hlen, hret⟩

theorem modifyHead_ip (h : EntryAt frames e) (ip : Nat) :
    EntryAt (frames.modifyHead fun f => { f with ip := ip }) e := by
  obtain ⟨top, g, below, rfl, hlen, hret⟩ := h
  cases top with
  | nil => exact ⟨[], { g with ip := ip }, below, rfl, hlen, hret⟩
  | cons f top => exact ⟨{ f with ip := ip } :: top, g, below, rfl, hlen, hret⟩

/-- A frame that another frame called is not an entry frame, so the entry frame
is further down. -/
theorem tail_of_retReg (h : EntryAt (f :: rest) e) {r : Nat} (hr : f.retReg = some r) :
    EntryAt rest e := by
  obtain ⟨top, g, below, heq, hlen, hret⟩ := h
  cases top with
  | nil =>
    cases heq
    rw [hr] at hret
    cases hret
  | cons f' top =>
    cases heq
    exact ⟨top, g, below, rfl, hlen, hret⟩

theorem tail_of_lt (h : EntryAt (f :: rest) e) (he : e < rest.length) : EntryAt rest e := by
  obtain ⟨top, g, below, heq, hlen, hret⟩ := h
  cases top with
  | nil =>
    cases heq
    omega
  | cons f' top =>
    cases heq
    exact ⟨top, g, below, rfl, hlen, hret⟩

/-- Unwinding to a depth above an entry frame keeps it. -/
theorem drop (h : EntryAt frames e) {depth : Nat} (hd : e < depth) :
    EntryAt (frames.drop (frames.length - depth)) e := by
  obtain ⟨top, g, below, rfl, hlen, hret⟩ := h
  have hk : (top ++ g :: below).length - depth ≤ top.length := by
    simp only [List.length_append, List.length_cons]
    omega
  refine ⟨top.drop ((top ++ g :: below).length - depth), g, below, ?_, hlen, hret⟩
  exact List.drop_append_of_le_length hk

end EntryAt

/-- The handlers above a floor belong to frames above depth `e`. -/
def HandlersAbove (tries : List TryCatchEntry) (floor e : Nat) : Prop :=
  ∀ h ∈ tries.take (tries.length - floor), e < h.frameDepth

namespace HandlersAbove

variable {tries : List TryCatchEntry} {floor e : Nat}

theorem at_top (tries : List TryCatchEntry) (e : Nat) : HandlersAbove tries tries.length e := by
  intro h hh
  rw [Nat.sub_self, List.take_zero] at hh
  cases hh

theorem cons (h : HandlersAbove tries floor e) {entry : TryCatchEntry}
    (he : e < entry.frameDepth) : HandlersAbove (entry :: tries) floor e := by
  intro x hx
  have hlen : (entry :: tries).length - floor ≤ (tries.length - floor) + 1 := by
    simp only [List.length_cons]
    omega
  have hx' := List.take_subset_take_left (entry :: tries) hlen hx
  rw [List.take_succ_cons, List.mem_cons] at hx'
  rcases hx' with rfl | hx'
  · exact he
  · exact h x hx'

theorem drop (h : HandlersAbove tries floor e) (n : Nat) :
    HandlersAbove (tries.drop n) floor e := by
  intro x hx
  rw [List.length_drop] at hx
  by_cases hn : tries.length - n ≤ floor
  · rw [Nat.sub_eq_zero_of_le hn, List.take_zero] at hx
    cases hx
  · rw [List.take_drop] at hx
    exact h x (List.take_subset_take_left tries (by omega) (List.mem_of_mem_drop hx))

theorem head (h : HandlersAbove tries floor e) {entry : TryCatchEntry}
    {rest : List TryCatchEntry} (ht : tries = entry :: rest) (hf : floor < tries.length) :
    e < entry.frameDepth := by
  refine h entry ?_
  subst ht
  rw [show (entry :: rest).length - floor = (rest.length - floor) + 1 by
    simp only [List.length_cons] at hf ⊢; omega, List.take_succ_cons]
  exact List.mem_cons_self

end HandlersAbove

/-! ## The invariant -/

/-- The activations of `run` on the native stack: the handlers above the floor of
each one, and its entry frame at depth `e`.  The outermost one was entered with
`n` frames on the call stack. -/
inductive Running (n : Nat) (frames : List Frame) (tries : List TryCatchEntry) :
    Nat → Nat → List Activation → Prop
  | outer {floor : Nat} {a : Activation} : EntryAt frames n → HandlersAbove tries floor n →
      a.caller = none → Running n frames tries floor n [a]
  | inner {floor e e' : Nat} {a : Activation} {rest : List Activation} : EntryAt frames e →
      HandlersAbove tries floor e → a.caller ≠ none → e' < e →
      Running n frames tries a.prevFloor e' rest → Running n frames tries floor e (a :: rest)

namespace Running

variable {n floor e : Nat} {frames frames' : List Frame} {tries tries' : List TryCatchEntry}
  {stack : List Activation}

theorem entry (h : Running n frames tries floor e stack) : EntryAt frames e := by
  cases h <;> assumption

theorem handlers (h : Running n frames tries floor e stack) : HandlersAbove tries floor e := by
  cases h <;> assumption

/-- A change that keeps every entry frame and every handler above it, down to
the bottom, keeps the activations. -/
theorem map (h : Running n frames tries floor e stack)
    (hf : ∀ e' ≤ e, EntryAt frames e' → EntryAt frames' e')
    (ht : ∀ e' ≤ e, ∀ floor, EntryAt frames e' → HandlersAbove tries floor e' →
      HandlersAbove tries' floor e') :
    Running n frames' tries' floor e stack := by
  induction h with
  | outer he hh hc => exact .outer (hf _ (Nat.le_refl _) he) (ht _ (Nat.le_refl _) _ he hh) hc
  | inner he hh hc hlt _ ih =>
    refine .inner (hf _ (Nat.le_refl _) he) (ht _ (Nat.le_refl _) _ he hh) hc hlt ?_
    exact ih (fun e' h' => hf e' (by omega)) fun e' h' => ht e' (by omega)

/-- The innermost activation ends: its guard drops the handlers that are left
over, and the floor of the next one is back. -/
theorem leaveRun {vm : Vm} {a : Activation} {rest : List Activation}
    (h : Running n vm.callStack vm.tryStack a.prevFloor e rest) :
    Running n (vm.leaveRun a).callStack (vm.leaveRun a).tryStack (vm.leaveRun a).tryFloor e rest :=
  h.map (fun _ _ he => he) fun _ _ _ _ ht => ht.drop _

end Running

/-- A machine under the activations `stack`. -/
def Vm.Under (n : Nat) (stack : List Activation) (vm : Vm) : Prop :=
  ∃ e, Running n vm.callStack vm.tryStack vm.tryFloor e stack

namespace Vm.Under

variable {n : Nat} {stack : List Activation} {s s' : VmState} {T : Nat → Prop}
  {P : FunctionProto → Prop}

theorem of_local (h : s.vm.Under n stack) (hl : Local T P s s') : s'.vm.Under n stack := by
  obtain ⟨e, h⟩ := h
  refine ⟨e, ?_⟩
  rw [hl.tries, hl.floor]
  refine h.map (fun e' _ he => ?_) fun _ _ _ _ ht => ht
  rcases hl.frames with hf | ⟨ip, -, hf⟩
  · rw [hf]
    exact he
  · rw [hf]
    exact he.modifyHead_ip ip

theorem of_handled {entry : TryCatchEntry} {rest : List TryCatchEntry} (h : s.vm.Under n stack)
    (hh : Handled s entry rest s') : s'.vm.Under n stack := by
  obtain ⟨e, h⟩ := h
  have hdepth : e < entry.frameDepth := h.handlers.head hh.tries hh.above
  refine ⟨e, ?_⟩
  rw [hh.tries', hh.floor, hh.frames, unwindFrames_fst]
  refine h.map (fun e' hle he => (he.drop ?_).modifyHead_ip _) fun e' _ _ _ ht => ?_
  · omega
  · have := ht.drop 1
    rwa [hh.tries, List.drop_one, List.tail_cons] at this

theorem advanceIp {f : Frame} {rest : List Frame} (h : s.vm.Under n stack)
    (hs : s.vm.callStack = f :: rest) : (advanceIp s f rest).vm.Under n stack := by
  obtain ⟨e, h⟩ := h
  refine ⟨e, h.map (fun e' _ he => ?_) fun _ _ _ _ ht => ht⟩
  rw [hs] at he
  exact he.modifyHead_ip (f.ip + 1)

theorem of_popped {f : Frame} {rest : List Frame} {next : Next} {r : Nat}
    (h : s.vm.Under n stack) (hs : s.vm.callStack = f :: rest) (hp : Popped s f rest next s')
    (hr : f.retReg = some r) : s'.vm.Under n stack := by
  obtain ⟨e, h⟩ := h
  refine ⟨e, ?_⟩
  rw [hp.tries, hp.floor, hp.frames]
  refine h.map (fun e' _ he => ?_) fun _ _ _ _ ht => ht
  rw [hs] at he
  exact he.tail_of_retReg hr

end Vm.Under

namespace Config

/-- The invariant of a run of `call_closure` that starts with `n` frames.  Once an
exception is out, the frame that `call_closure` pushed is still there. -/
def Unwinding (n : Nat) (c : Config) : Prop :=
  match c.control with
  | .run | .host _ _ | .sending _ _ => c.vm.Under n c.stack
  | .returned (.error _) => n < c.vm.callStack.length
  | _ => True

variable {n : Nat} {c : Config}

theorem unwinding_leave_error (h : c.vm.Under n c.stack) (e : Exn) :
    (c.leave (.error e)).Unwinding n := by
  obtain ⟨d, h⟩ := h
  unfold leave
  cases hstack : c.stack with
  | nil =>
    rw [hstack] at h
    cases h
  | cons a rest =>
    rw [hstack] at h
    cases h with
    | outer he _ hc =>
      simp only [hc]
      exact he.lt_length
    | inner _ _ hc _ hrest =>
      obtain ⟨⟨k, dest⟩, hk⟩ := Option.ne_none_iff_exists'.mp hc
      simp only [hk]
      exact ⟨_, hrest.leaveRun⟩

/-- A return out of `run`.  It pops one frame, so the entry frames further out
are still there. -/
theorem unwinding_leave_ok {s : VmState} {f : Frame} {rest : List Frame} {next : Next}
    (h : s.vm.Under n c.stack) (hs : s.vm.callStack = f :: rest)
    (hp : Popped s f rest next c.state) (v : Value) : (c.leave (.ok v)).Unwinding n := by
  obtain ⟨d, h⟩ := h
  unfold leave
  cases hstack : c.stack with
  | nil =>
    rw [hstack] at h
    cases h
  | cons a acts =>
    rw [hstack] at h
    cases h with
    | outer _ _ hc =>
      simp only [hc]
      trivial
    | inner he _ hc hlt hacts =>
      obtain ⟨⟨k, dest⟩, hk⟩ := Option.ne_none_iff_exists'.mp hc
      simp only [hk]
      have hd := he.lt_length
      rw [hs, List.length_cons] at hd
      refine ⟨_, Running.leaveRun (hacts.map (fun e' hle he' => ?_) fun _ _ _ _ ht => ?_)⟩
      · rw [show c.vm.callStack = rest from hp.frames]
        rw [hs] at he'
        exact he'.tail_of_lt (by omega)
      · rw [show c.vm.tryStack = s.vm.tryStack from hp.tries]
        exact ht

/-! ### Steps -/

theorem unwinding_raise {s : VmState} (h : s.vm.Under n c.stack) (e : Exn) :
    ((c.withState s).raise e).Unwinding n := by
  have hb := bridge_ensures e s
  show ((c.withState s).resume (bridge e s)).Unwinding n
  cases hr : bridge e s with
  | ok _ s' =>
    obtain ⟨_, entry, rest, hh⟩ := hb.of_ok hr
    exact h.of_handled hh
  | error halt s' =>
    rcases hb.of_error hr with rfl | ⟨rfl, rfl⟩
    · trivial
    · exact unwinding_leave_error (c := (c.withState s').withState s') h e
  | timeout => trivial

theorem unwinding_effect {P : FunctionProto → Prop} {f : Frame} {w : Instruction} {s s' : VmState}
    {next : Next} (h : s.vm.Under n c.stack) (hf : Effect P f w s next s') :
    ((c.withState s').advance next).1.Unwinding n := by
  have hnext : ∀ {next : Next} {s' : VmState}, (∀ v, next ≠ .ret v) → s'.vm.Under n c.stack →
      ((c.withState s').advance next).1.Unwinding n := by
    intro next s' hret hs'
    cases next with
    | ret v => exact absurd rfl (hret v)
    | _ => exact hs'
  cases hf with
  | stay _ hret hl => exact hnext hret (h.of_local hl)
  | tryPush _ =>
    refine hnext (fun v => Next.noConfusion) ?_
    obtain ⟨e, h⟩ := h
    exact ⟨e, h.map (fun _ _ he => he) fun _ _ _ he ht => ht.cons he.lt_length⟩
  | tryPop _ =>
    refine hnext (fun v => Next.noConfusion) ?_
    obtain ⟨e, h⟩ := h
    exact ⟨e, h.map (fun _ _ he => he) fun _ _ _ _ ht => List.drop_one ▸ ht.drop 1⟩
  | call _ hl hg =>
    refine hnext (fun v => Next.noConfusion) ?_
    obtain ⟨e, h⟩ := h.of_local hl
    exact ⟨e, h.map (fun _ _ he => he.cons _) fun _ _ _ _ ht => ht⟩
  | ret _ hs hp =>
    rcases hp.next with ⟨⟨v, rfl⟩, -⟩ | ⟨rfl, -, r, hr⟩
    · exact unwinding_leave_ok (c := c.withState s') h hs hp v
    · exact hnext (fun v => Next.noConfusion) (h.of_popped hs hp hr)
  | handler _ hh => exact hnext (fun v => Next.noConfusion) (h.of_handled hh)

variable [DoubleOps]

theorem unwinding_stepRun {m : Machine} {c' : Config} {t : Option Task}
    (h : c.vm.Under n c.stack) (hstep : c.stepRun m = some (c', t)) : c'.Unwinding n := by
  have hp : Covered (fun _ => True) c.state := fun _ _ _ _ => trivial
  unfold stepRun at hstep
  split at hstep
  · rename_i next s hr
    have hc' : ((c.withState s).advance next).1 = c' := by rw [Option.some.inj hstep]
    subst hc'
    cases fetchExec_ok hp hr with
    | idle hs =>
      obtain ⟨e, h⟩ := h
      have hlt := h.entry.lt_length
      rw [show c.vm.callStack = [] from hs] at hlt
      cases hlt
    | ended hs _ hpop =>
      rcases hpop.next with ⟨⟨v, rfl⟩, -⟩ | ⟨rfl, -, r, hr⟩
      · exact unwinding_leave_ok (c := c.withState s) (s := c.state) h hs hpop v
      · exact Vm.Under.of_popped (s := c.state) h hs hpop hr
    | executed hs _ hf => exact unwinding_effect (Vm.Under.advanceIp (s := c.state) h hs) hf
  · rename_i e s hr
    cases hstep
    obtain ⟨f, rest, w, hraised⟩ := fetchExec_exn hp hr
    have hs := Vm.Under.advanceIp (s := c.state) h hraised.frames
    exact unwinding_raise (hs.of_local hraised.moved) e
  · cases hstep
    trivial
  · cases hstep
    trivial
  · cases hstep
    trivial
  · cases hstep
  · cases hstep

omit [DoubleOps] in
/-- `call_closure` from a builtin: the new activation has the new frame as its
entry frame. -/
theorem unwinding_callFrom (h : c.vm.Under n c.stack) (fn : Value) (args : List Value)
    (k : Except Exn Value → HostProg) (dest : Nat) : (c.callFrom fn args k dest).Unwinding n := by
  unfold callFrom
  split
  · split
    · trivial
    · rename_i closure _
      have hcall := prepareCall_ensures closure args c.state
      split
      · rename_i s hr
        obtain ⟨_, g, hg⟩ := hcall.of_ok hr
        obtain ⟨e, h⟩ := h
        refine ⟨c.vm.callStack.length, .inner ⟨[], g, _, hg.frames, rfl, hg.retReg⟩
          (HandlersAbove.at_top _ _) (fun hk => nomatch hk) h.entry.lt_length ?_⟩
        show Running n s.vm.callStack s.vm.tryStack s.vm.tryFloor _ _
        rw [hg.frames, hg.tries, hg.floor]
        exact h.map (fun _ _ he => he.cons g) fun _ _ _ _ ht => ht
      · rename_i e s hr
        rcases hcall.of_error hr with hub | ⟨_, rfl⟩
        · cases hub
        · exact h
      · trivial
  · exact h

omit [DoubleOps] in
theorem unwinding_stepHost (h : c.vm.Under n c.stack) (dest : Nat) (prog : HostProg) :
    (c.stepHost dest prog).Unwinding n := by
  cases prog with
  | ret v =>
    have hset := setReg_ensures dest v c.state
    show (c.resume (setReg dest v c.state)).Unwinding n
    cases hr : setReg dest v c.state with
    | ok _ s =>
      obtain ⟨_, rfl⟩ := hset.of_ok hr
      exact h
    | error halt s =>
      cases (show halt = .ub from hset.of_error hr)
      trivial
    | timeout => trivial
  | throw e => exact unwinding_raise (s := c.state) h e
  | call fn args k => exact unwinding_callFrom h fn args k dest
  | _ => exact h

/-- Every step keeps the invariant. -/
theorem unwinding_step {m : Machine} {c' : Config} (h : c.Unwinding n) (hstep : Steps m c c') :
    c'.Unwinding n := by
  obtain ⟨t, hstep⟩ := hstep
  unfold Unwinding at h
  unfold step at hstep
  split at hstep
  · rename_i hc
    rw [hc] at h
    exact unwinding_stepRun h hstep
  · rename_i prog dest hc
    rw [hc] at h
    cases hstep
    exact unwinding_stepHost h dest prog
  · rename_i p gen hc
    rw [hc] at h
    unfold stepSending at hstep
    split at hstep
    · cases hstep
      trivial
    · split at hstep
      · cases hstep
        exact h
      · cases hstep
  all_goals cases hstep

theorem unwinding_steps {m : Machine} {c' : Config} (h : c.Unwinding n)
    (hsteps : Relation.ReflTransGen (Steps m) c c') : c'.Unwinding n := by
  induction hsteps with
  | refl => exact h
  | tail _ hstep ih => exact unwinding_step ih hstep

/-! ## `call_closure` -/

omit [DoubleOps] in
theorem callClosure_of_depth {vm : Vm} (w : World) (closure : Closure) (args : List Value)
    (hd : Vm.maxCallDepth ≤ vm.callStack.length) :
    callClosure vm w closure args =
      { vm := vm, world := w, control := .returned (.error (.std stackOverflow)), stack := [] } := by
  unfold callClosure prepareCall
  rw [bind_apply]
  simp only [gets_apply, if_pos hd]
  rfl

omit [DoubleOps] in
theorem unwinding_callClosure {vm : Vm} (w : World) (closure : Closure) (args : List Value)
    (hd : vm.callStack.length < Vm.maxCallDepth) :
    (callClosure vm w closure args).Unwinding vm.callStack.length := by
  have hcall := prepareCall_ensures closure args { vm := vm, world := w }
  unfold callClosure
  split
  · rename_i s hr
    obtain ⟨_, g, hg⟩ := hcall.of_ok hr
    exact ⟨_, .outer ⟨[], g, _, hg.frames, rfl, hg.retReg⟩ (HandlersAbove.at_top _ _) rfl⟩
  · rename_i e s hr
    rcases hcall.of_error hr with hub | ⟨hdepth, -⟩
    · cases hub
    · exact absurd hdepth (Nat.not_le.mpr hd)
  · trivial

/-- An exception that leaves `call_closure` leaves the stacks of the machine as
they were exactly when it is the depth check that throws. -/
theorem callClosure_restored_iff (m : Machine) (vm : Vm) (w : World) (closure : Closure)
    (args : List Value) {c : Config} {e : Exn}
    (hrun : Relation.ReflTransGen (Steps m) (callClosure vm w closure args) c)
    (hexit : c.control = .returned (.error e)) :
    vm.Restored c.vm ↔ Vm.maxCallDepth ≤ vm.callStack.length := by
  constructor
  · intro hrestored
    refine Nat.not_lt.mp fun hlt => ?_
    have h := unwinding_steps (unwinding_callClosure w closure args hlt) hrun
    unfold Unwinding at h
    rw [hexit] at h
    exact absurd (congrArg List.length hrestored.callStack) (Nat.ne_of_gt h)
  · intro hd
    rw [callClosure_of_depth w closure args hd] at hrun
    -- The call has already ended, so the run has no step.
    cases hrun.cases_head with
    | inl heq =>
      subst heq
      exact ⟨rfl, rfl, rfl, rfl⟩
    | inr hnext =>
      obtain ⟨c', ⟨t, hstep⟩, -⟩ := hnext
      cases hstep

/-- `call_closure` is exception-safe on an input: every exception that leaves it
leaves the stacks of the machine as they were. -/
def ExceptionSafe (m : Machine) (vm : Vm) (w : World) (closure : Closure) (args : List Value) :
    Prop :=
  ∀ (c : Config) (e : Exn), Relation.ReflTransGen (Steps m) (callClosure vm w closure args) c →
    c.control = .returned (.error e) → vm.Restored c.vm

end Config

/-! ### A callback that throws -/

/-- The code of `function() { throw null; }`. -/
def throwNull : FunctionProto where
  uid := 1
  name := "<closure>"
  params := []
  variadic := false
  regCount := 1
  constants := []
  code := [{ op := .loadNull }, { op := .throw }, { op := .retNull }]
  nested := []
  lines := [1, 1, 1]
  captureIsCell := []
  origins := [.plain, .plain, .plain]

def Machine.bare : Machine := { builtins := none, taskLimit := 64, warnUndef := false }

def World.empty : World := { arrays := [], closures := [], channels := [], activeTasks := 0 }

/-- The machine of a request, before its first call. -/
def Vm.fresh : Vm := Vm.init (fun _ => none) true

namespace Config

/-- The call of `throwNull` ends with the exception and with the frame of the
call still there. -/
theorem callClosure_throwNull : letI := DoubleOps.host
    ∃ c, Relation.ReflTransGen (Steps Machine.bare)
      (callClosure Vm.fresh World.empty { proto := throwNull, captures := [] } []) c ∧
    c.control = .returned (.error (.vmThrow .none)) ∧ c.vm.callStack.length = 1 := by
  let _ := DoubleOps.host
  refine ⟨_, .head ⟨none, rfl⟩ (.head ⟨none, rfl⟩ .refl), rfl, rfl⟩

/-- The depth check is not what throws in `throwNull`, so the stacks are not put
back. -/
theorem callClosure_restored_iff_throwNull : letI := DoubleOps.host
    ∃ c, Relation.ReflTransGen (Steps Machine.bare)
      (callClosure Vm.fresh World.empty { proto := throwNull, captures := [] } []) c ∧
    c.control = .returned (.error (.vmThrow .none)) ∧
    (Vm.fresh.Restored c.vm ↔ Vm.maxCallDepth ≤ Vm.fresh.callStack.length) := by
  let _ := DoubleOps.host
  obtain ⟨c, hrun, hexit, -⟩ := callClosure_throwNull
  exact ⟨c, hrun, hexit, callClosure_restored_iff _ _ _ _ _ hrun hexit⟩

theorem callClosure_not_exceptionSafe : letI := DoubleOps.host
    ¬ExceptionSafe Machine.bare Vm.fresh World.empty { proto := throwNull, captures := [] } [] := by
  let _ := DoubleOps.host
  intro hsafe
  obtain ⟨c, hrun, hexit, hlen⟩ := callClosure_throwNull
  have hframes := congrArg List.length (hsafe c _ hrun hexit).callStack
  rw [hlen] at hframes
  cases hframes

end Config

end Look
