/-
How a call of a function ends.

`call_function` switches to the new environment to bind the parameters and to run the
body.  Out of the body it always switches back.  Out of the two binding loops it does so
at the end and where a parameter has neither an argument nor a default, but not when a
default throws.
-/
import Look.Interp.Steady
import Look.Engines.Programs

namespace Look

namespace Interp

open Exec

variable {s s' s₁ : InterpState} {α : Type}

/-- The call depth, the call stack and the current environment are those of `s`. -/
def Restores (s : InterpState) : Res InterpState Signal α → Prop
  | .ok _ s' => s'.current = s.current ∧ s'.callDepth = s.callDepth ∧ s'.callStack = s.callStack
  | .error _ s' =>
    s'.current = s.current ∧ s'.callDepth = s.callDepth ∧ s'.callStack = s.callStack
  | .timeout => True

/-- A variable is bound in the environment at `p`. -/
def bound (p : Nat) (name : String) (v : Value) (s : InterpState) : InterpState :=
  { s with envs := s.envs.modify p fun env =>
    { env with values := defineValue name v env.values } }

section Defaults

variable (rec : InterpRec)

/-- Binding the parameters from position `i` on comes to a default that throws. -/
def defaultThrows (fnEnv : Nat) (args : List Value) (defaults : List (Option Expr)) :
    Nat → List String → InterpState → Bool
  | _, [], _ => false
  | i, name :: rest, s =>
    match args[i]? with
    | some v => defaultThrows fnEnv args defaults (i + 1) rest (bound fnEnv name v s)
    | none =>
      match (defaults[i]?).join with
      | some e =>
        match rec.eval e s with
        | .ok v s' => defaultThrows fnEnv args defaults (i + 1) rest (bound fnEnv name v s')
        | .error _ _ => true
        | .timeout => false
      | none => false

/-- The state in which the parameters are bound. -/
def entered (f : LookFunction) (s : InterpState) : InterpState :=
  { s with
    envs := s.envs ++ [{ values := [], parent := some f.closure, fnBoundary := true }]
    current := s.envs.length }

/-- The parameters that are bound one by one. -/
def boundParams (f : LookFunction) : List String :=
  if f.variadic then f.parameters.take (f.parameters.length - 1) else f.parameters

/-- A default throws when the parameters are bound. -/
def BindingFails (f : LookFunction) (args : List Value) (s : InterpState) : Prop :=
  (f.variadic = false → args.length ≤ f.parameters.length) ∧
    defaultThrows rec s.envs.length args (usableDefaults f) 0 (boundParams f) (entered f s) = true

/-- The call binds its parameters, and one of the defaults throws. -/
def FailingDefault (f : LookFunction) (args : List Value) (s : InterpState) : Prop :=
  s.callDepth < maxCallDepth ∧ BindingFails rec f args s

end Defaults

/-! ## The parts of a call -/

section Call

variable {rec : InterpRec} {fnEnv saved : Nat} {args : List Value}
  {defaults : List (Option Expr)} {expects : String}

theorem bound_within (p : Nat) (name : String) (v : Value) (h : Within s s') :
    Within s (bound p name v s') :=
  h.trans (.of_eq rfl rfl (List.length_modify ..) rfl)

variable (fnEnv saved args defaults expects) in
/-- The binding loop, in a state that is later than `s`. -/
theorem bindParams_ends (hrec : SteadyRec rec) (i : Nat) (params : List String)
    (h : Within s s₁) :
    match bindParams rec fnEnv saved args defaults expects i params s₁ with
    | .ok _ s' => Within s s' ∧ defaultThrows rec fnEnv args defaults i params s₁ = false
    | .error _ s' =>
      Within s s' ∧ defaultThrows rec fnEnv args defaults i params s₁ = true ∨
        Within s { s' with current := s.current } ∧ s'.current = saved ∧
          defaultThrows rec fnEnv args defaults i params s₁ = false
    | .timeout => defaultThrows rec fnEnv args defaults i params s₁ = false := by
  induction params generalizing i s₁ with
  | nil => exact ⟨h, rfl⟩
  | cons name rest ih =>
    cases hargs : args[i]? with
    | some v =>
      have hih := ih (i + 1) (bound_within fnEnv name v h)
      simp only [bindParams, hargs, defaultThrows]
      exact hih
    | none =>
      cases hdefault : (defaults[i]?).join with
      | none =>
        simp only [bindParams, hargs, hdefault, defaultThrows]
        exact .inr ⟨h.back, rfl, trivial⟩
      | some e =>
        simp only [bindParams, hargs, hdefault, defaultThrows, bind_apply]
        cases heval : rec.eval e s₁ with
        | ok v s₂ =>
          have hih := ih (i + 1) (bound_within fnEnv name v (h.trans ((hrec.eval e).rel heval)))
          exact hih
        | error err s₂ => exact .inl ⟨h.trans ((hrec.eval e).err heval), rfl⟩
        | timeout => rfl

theorem entered_within (f : LookFunction) (s : InterpState) : Within s (entered f s) := by
  refine ⟨rfl, rfl, ?_, .inr (Nat.le_refl _)⟩
  rw [entered, List.length_append]
  exact Nat.le_add_right _ _

/-- A run that comes back to the environment of `s`. -/
def Back (s : InterpState) : Res InterpState Signal α → Prop
  | .ok _ s' => Within s s' ∧ s'.current = s.current
  | .error _ s' => Within s s' ∧ s'.current = s.current
  | .timeout => True

/-- A run in a state that is later than `s`. -/
theorem Back.later {r : Res InterpState Signal α} (h : Back s₁ r) (hs : Within s s₁)
    (hcurrent : s₁.current = s.current) : Back s r := by
  cases r with
  | ok a s' => exact ⟨hs.trans h.1, h.2.trans hcurrent⟩
  | error e s' => exact ⟨hs.trans h.1, h.2.trans hcurrent⟩
  | timeout => trivial

/-- A run that comes back, unless a default throws. -/
def Ended (s : InterpState) (fails : Prop) : Res InterpState Signal α → Prop
  | .ok _ s' => Within s s' ∧ s'.current = s.current ∧ ¬ fails
  | .error _ s' =>
    Within s s' ∧ (s.envs.length ≤ s'.current ∧ fails ∨ s'.current = s.current ∧ ¬ fails)
  | .timeout => ¬ fails

theorem Back.ended {r : Res InterpState Signal α} {fails : Prop} (h : Back s r)
    (hfails : ¬ fails) : Ended s fails r := by
  cases r with
  | ok a s' => exact ⟨h.1, h.2, hfails⟩
  | error e s' => exact ⟨h.1, .inr ⟨h.2, hfails⟩⟩
  | timeout => exact hfails

/-- The binding loop of a call, the switch back, and what is done then. -/
theorem binding_ends (hrec : SteadyRec rec) (f : LookFunction) (s : InterpState)
    {params : List String} (hparams : boundParams f = params) {k : Interp Unit}
    (hk : ∀ s', Within s s' → s'.current = s.current → Back s (k s')) :
    Ended s (defaultThrows rec s.envs.length args (usableDefaults f) 0 (boundParams f)
        (entered f s) = true)
      ((bindParams rec s.envs.length s.current args (usableDefaults f) expects 0 params
        >>= fun _ => setCurrent s.current >>= fun _ => k) (entered f s)) := by
  subst hparams
  have hin := entered_within f s
  have hbind := bindParams_ends s.envs.length s.current args (usableDefaults f) expects hrec 0
    (boundParams f) (Within.refl (entered f s))
  rw [bind_apply]
  cases hres : bindParams rec s.envs.length s.current args (usableDefaults f) expects 0
      (boundParams f) (entered f s) with
  | ok u s' =>
    rw [hres] at hbind
    have hback : Back s (k { s' with current := s.current }) :=
      hk _ (hin.trans hbind.1).back rfl
    exact hback.ended (Bool.eq_false_iff.mp hbind.2)
  | error e s' =>
    rw [hres] at hbind
    rcases hbind with ⟨hwithin, hthrows⟩ | ⟨hwithin, hsaved, hthrows⟩
    · refine ⟨hin.trans hwithin, .inl ⟨?_, hthrows⟩⟩
      rcases hwithin.current with hc | hc
      · exact Nat.le_of_eq hc.symm
      · exact Nat.le_trans hin.envs hc
    · have hsame : { s' with current := s.current } = s' := by rw [← hsaved]
      refine ⟨?_, .inr ⟨hsaved, Bool.eq_false_iff.mp hthrows⟩⟩
      exact hsame ▸ (hin.trans hwithin).back
  | timeout =>
    rw [hres] at hbind
    exact Bool.eq_false_iff.mp hbind

variable (args) in
/-- The parameters of a call, in the state behind `newEnv`. -/
theorem bindCall_ends (hrec : SteadyRec rec) (f : LookFunction) (s : InterpState) :
    Ended s (BindingFails rec f args s)
      (bindCall rec f s.envs.length args { entered f s with current := s.current }) := by
  have hback : Within s { entered f s with current := s.current } := (entered_within f s).back
  cases hvariadic : f.variadic with
  | true =>
    have hfails : BindingFails rec f args s ↔ defaultThrows rec s.envs.length args
        (usableDefaults f) 0 (boundParams f) (entered f s) = true :=
      ⟨And.right, fun h => ⟨fun hfalse => absurd (hvariadic.symm.trans hfalse) nofun, h⟩⟩
    rw [hfails]
    simp only [bindCall, hvariadic, if_true]
    refine binding_ends hrec f s (if_pos hvariadic) fun s' hwithin hcurrent => ?_
    have hworld : Within s { s' with
        world := (s'.world.newArray (args.drop (f.parameters.length - 1))).2 } :=
      hwithin.trans (.of_eq rfl rfl rfl rfl)
    simp only [bind_apply, onWorld]
    cases hrest : f.parameters[f.parameters.length - 1]? with
    | some name => exact ⟨bound_within _ name _ hworld, hcurrent⟩
    | none => exact ⟨hworld, hcurrent⟩
  | false =>
    by_cases hmany : f.parameters.length < args.length
    · have hfails : ¬ BindingFails rec f args s := fun h =>
        absurd (h.1 hvariadic) (Nat.not_le.mpr hmany)
      have hthrow : Back s (.error (runtimeError ("Function '" ++ f.name ++ "' expects " ++
          "at most " ++ toString f.parameters.length ++ " args, got " ++ toString args.length))
          { entered f s with current := s.current } : Res InterpState Signal Unit) := ⟨hback, rfl⟩
      simp only [bindCall, hvariadic, Bool.false_eq_true, if_false, hmany, if_true]
      exact hthrow.ended hfails
    · have hfails : BindingFails rec f args s ↔ defaultThrows rec s.envs.length args
          (usableDefaults f) 0 (boundParams f) (entered f s) = true :=
        ⟨And.right, fun h => ⟨fun _ => Nat.le_of_not_lt hmany, h⟩⟩
      rw [hfails]
      simp only [bindCall, hvariadic, Bool.false_eq_true, if_false, hmany]
      exact binding_ends (k := Pure.pure ()) hrec f s (by rw [boundParams, hvariadic]; rfl)
        fun s' hwithin hcurrent => ⟨hwithin, hcurrent⟩

/-- The body of a call. -/
theorem runBody_back (hrec : SteadyRec rec) (f : LookFunction) (fnEnv : Nat) (s : InterpState) :
    Back s (runBody rec f fnEnv s) := by
  have hbody : Steady (forEach f.body rec.exec) := Steady.forEach hrec.exec
  have hleave : ∀ s', Within { s with
        current := fnEnv, callDepth := s.callDepth + 1,
        callStack := frameName f :: s.callStack } s' →
      Within s (leaveCall s.current s') ∧ (leaveCall s.current s').current = s.current := by
    intro s' h
    refine ⟨⟨?_, ?_, h.envs, .inl rfl⟩, rfl⟩
    · exact congrArg (· - 1) h.depth
    · exact congrArg List.tail h.stack
  unfold runBody
  split
  next hres => exact hleave _ (hbody.rel hres)
  next hres => exact hleave _ (hbody.err hres)
  next hres => exact hleave _ (hbody.err hres)
  next hres => exact hleave _ (hbody.err hres)
  next => trivial

/-- A call comes back, unless a default throws. -/
theorem callFunction_ended (hrec : SteadyRec rec) (f : LookFunction) (args : List Value)
    (s : InterpState) : Ended s (FailingDefault rec f args s) (callFunction rec f args s) := by
  by_cases hdepth : maxCallDepth ≤ s.callDepth
  · have hthrow : Back s (.error (runtimeError ("Stack overflow: max call depth exceeded in '" ++
        f.name ++ "'")) s : Res InterpState Signal Value) := ⟨Within.refl s, rfl⟩
    simp only [callFunction, bind_apply, gets_apply, hdepth, if_true]
    exact hthrow.ended fun h => absurd h.1 (Nat.not_lt.mpr hdepth)
  · have hfails : FailingDefault rec f args s ↔ BindingFails rec f args s :=
      ⟨And.right, fun h => ⟨Nat.lt_of_not_le hdepth, h⟩⟩
    have hbind := bindCall_ends args hrec f s
    have hcall : callFunction rec f args s =
        (bindCall rec f s.envs.length args >>= fun _ => runBody rec f s.envs.length)
          { entered f s with current := s.current } := by
      simp only [callFunction, bind_apply, gets_apply, hdepth, if_false]
      rfl
    rw [hfails, hcall, bind_apply]
    cases hres : bindCall rec f s.envs.length args { entered f s with current := s.current } with
    | ok u s' =>
      rw [hres] at hbind
      have hbody := (runBody_back hrec f s.envs.length s').later hbind.1 hbind.2.1
      exact hbody.ended hbind.2.2
    | error e s' =>
      rw [hres] at hbind
      exact hbind
    | timeout =>
      rw [hres] at hbind
      exact hbind

theorem callFunction_steady (hrec : SteadyRec rec) (f : LookFunction) (args : List Value) :
    Steady (callFunction rec f args) := by
  refine Steady.of_ends fun s => ?_
  have hended := callFunction_ended hrec f args s
  cases hres : callFunction rec f args s with
  | ok v s' =>
    rw [hres] at hended
    exact hended.1
  | error e s' =>
    rw [hres] at hended
    exact hended.1
  | timeout => trivial

end Call

/-! ## Calls in a program -/

section Restores

variable [DoubleOps] {host : InterpHost}

/-- Every entry point of the interpreter is steady. -/
theorem recAt_steady (hhost : SteadyHost host) (fuel : Nat) : SteadyRec (recAt host fuel) := by
  induction fuel with
  | zero => exact ⟨fun _ => Steady.timeout, fun _ => Steady.timeout, fun _ _ => Steady.timeout⟩
  | succ fuel ih =>
    exact ⟨evalExpr_steady hhost ih, execStmt_steady hhost ih fuel, callFunction_steady ih⟩

/-- A call of any function, however it ends, leaves the current environment, the call depth
and the call stack as they were if and only if no default throws in it. -/
theorem call_restores_iff (hhost : SteadyHost host) (fuel : Nat) (f : LookFunction)
    (args : List Value) (s : InterpState) (hs : s.current < s.envs.length) :
    Restores s ((recAt host (fuel + 1)).call f args s) ↔
      ¬ FailingDefault (recAt host fuel) f args s := by
  have hended : Ended s (FailingDefault (recAt host fuel) f args s)
      ((recAt host (fuel + 1)).call f args s) := callFunction_ended (recAt_steady hhost fuel) f args s
  cases hres : (recAt host (fuel + 1)).call f args s with
  | ok v s' =>
    rw [hres] at hended
    exact ⟨fun _ => hended.2.2, fun _ => ⟨hended.2.1, hended.1.depth, hended.1.stack⟩⟩
  | error e s' =>
    rw [hres] at hended
    obtain ⟨hwithin, ⟨hleft, hfails⟩ | ⟨hcurrent, hfails⟩⟩ := hended
    · refine ⟨fun h => absurd h.1 ?_, fun h => absurd hfails h⟩
      exact Nat.ne_of_gt (Nat.lt_of_lt_of_le hs hleft)
    · exact ⟨fun _ => hfails, fun _ => ⟨hcurrent, hwithin.depth, hwithin.stack⟩⟩
  | timeout =>
    rw [hres] at hended
    exact ⟨fun _ => hended, fun _ => trivial⟩

end Restores

theorem steadyHost_bare (parse : String → Except String Program) :
    SteadyHost (.bare parse) where
  native _ _ _ _ _ := nofun
  scope _ _ := Steady.throw _
  use _ := Follows.pure _
  useFile _ := Follows.pure _

/-- `function f($x = $y) {}`. -/
def defaultsToY : LookFunction where
  name := "f"
  parameters := ["$x"]
  variadic := false
  body := []
  closure := 0
  defaults := [some (.var "$y")]

/-- The interpreter behind the declaration of `f`. -/
def declaresF : InterpState :=
  { InterpState.start with
    functions := [defaultsToY]
    envs := [{ values := [("f", .function 0)], parent := none, fnBoundary := false }] }

/-- Parses `f();`. -/
def parsesCall (src : String) : Except String Program :=
  if src = "f();" then .ok [.mk 1 (.expression (.call (.var "f") []))] else .error src

/-- With an argument the default is not evaluated. -/
theorem call_restores_argument :
    let _ := DoubleOps.host
    Restores declaresF ((recAt (.bare parsesCall) 1).call defaultsToY [.int 1] declaresF) := by
  intro _
  refine (call_restores_iff (steadyHost_bare parsesCall) 0 defaultsToY [.int 1] declaresF
    (by decide)).mpr ?_
  rintro ⟨-, -, hthrows⟩
  cases hthrows

/-- Without one the default throws, and the environment of the call stays current: for the
caller, and behind a string `{f()}`, which goes on as if nothing had happened. -/
theorem failing_default :
    let _ := DoubleOps.host
    (¬ Restores declaresF ((recAt (.bare parsesCall) 5).call defaultsToY [] declaresF)) ∧
      (match (recAt (.bare parsesCall) 9).eval (.stringLit "{f()}" false) declaresF with
        | .ok v s' => (v, s'.current)
        | _ => (.none, declaresF.current)) = (.string "{f()}", 1) := by
  intro _
  refine ⟨?_, by decide +kernel⟩
  intro h
  have hcurrent : (1 : Nat) = 0 := h.1
  cases hcurrent

end Interp

end Look
