/-
What every part of the interpreter leaves as it was.

Only `call_function` changes `call_depth_` and `call_stack_`, and it changes them back.
`current_` is switched in many places.  A place that does not switch it back leaves an
environment that was made in the meantime, so that it is not one from before.
-/
import Look.Interp.Eval

namespace Look

namespace Interp

open Exec

/-- From one state to a later one. -/
structure Within (s s' : InterpState) : Prop where
  depth : s'.callDepth = s.callDepth
  stack : s'.callStack = s.callStack
  envs : s.envs.length ≤ s'.envs.length
  current : s'.current = s.current ∨ s.envs.length ≤ s'.current

variable {s s' s'' : InterpState}

theorem Within.refl (s : InterpState) : Within s s := ⟨rfl, rfl, Nat.le_refl _, .inl rfl⟩

theorem Within.trans (h : Within s s') (h' : Within s' s'') : Within s s'' where
  depth := h'.depth.trans h.depth
  stack := h'.stack.trans h.stack
  envs := Nat.le_trans h.envs h'.envs
  current := by
    rcases h'.current with hc | hc
    · rw [hc]
      exact h.current
    · exact .inr (Nat.le_trans h.envs hc)

/-- The current environment is switched back. -/
theorem Within.back (h : Within s s') : Within s { s' with current := s.current } where
  depth := h.depth
  stack := h.stack
  envs := h.envs
  current := .inl rfl

/-- A step that changes nothing of this. -/
theorem Within.of_eq (hdepth : s'.callDepth = s.callDepth) (hstack : s'.callStack = s.callStack)
    (henvs : s'.envs.length = s.envs.length) (hcurrent : s'.current = s.current) :
    Within s s' where
  depth := hdepth
  stack := hstack
  envs := Nat.le_of_eq henvs.symm
  current := .inl hcurrent

def steady : Moves InterpState Signal where
  rel := Within
  err _ := Within
  refl := Within.refl
  trans := Within.trans
  absorb := Within.trans

/-- Every run ends in a later state, also when it throws. -/
abbrev Steady {α : Type} (m : Interp α) : Prop := Follows steady m

section Rules

variable {α β : Type} {m : Interp α}

theorem Steady.throw (e : Signal) : Steady (Exec.throw e : Interp α) := Follows.throw Within.refl

theorem Steady.timeout : Steady (Exec.timeout : Interp α) := fun _ => trivial

theorem Steady.modify {f : InterpState → InterpState} (h : ∀ s, Within s (f s)) :
    Steady (Exec.modify f) := Follows.modify h

theorem Steady.tryCatch {h : Signal → Interp α} (hm : Steady m) (hh : ∀ e, Steady (h e)) :
    Steady (Exec.tryCatch m h) := by
  intro s
  have hs := hm s
  unfold Ensures at hs ⊢
  unfold Exec.tryCatch
  cases hres : m s with
  | ok a s' =>
    rw [hres] at hs
    exact hs
  | error e s' =>
    rw [hres] at hs
    have hs' := hh e s'
    unfold Ensures at hs'
    cases hres' : h e s' with
    | ok a s'' =>
      rw [hres'] at hs'
      simp only [hres']
      exact ⟨hs.trans hs'.1, trivial⟩
    | error e' s'' =>
      rw [hres'] at hs'
      simp only [hres']
      exact hs.trans hs'
    | timeout => simp only [hres']
  | timeout => trivial

theorem Steady.forEach {l : List α} {m : α → Interp Unit} (h : ∀ a, Steady (m a)) :
    Steady (Exec.forEach l m) := by
  induction l with
  | nil => exact Follows.pure ()
  | cons a rest ih => exact Follows.bind (h a) fun _ => ih

theorem Steady.mapEach {l : List α} {m : α → Interp β} (h : ∀ a, Steady (m a)) :
    Steady (Exec.mapEach l m) := by
  induction l with
  | nil => exact Follows.pure []
  | cons a rest ih =>
    exact Follows.bind (h a) fun _ => Follows.bind ih fun _ => Follows.pure _

/-- What is run in an environment, and then back. -/
theorem Steady.withEnv (hm : Steady m) (p : Nat) : Steady (withEnv p m) := by
  intro s
  have hs := hm { s with current := p }
  have hback : ∀ s', Within { s with current := p } s' → Within s { s' with current := s.current } :=
    fun s' h => ⟨h.depth, h.stack, h.envs, .inl rfl⟩
  unfold Ensures at hs ⊢
  unfold Interp.withEnv
  cases hres : m { s with current := p } with
  | ok a s' =>
    rw [hres] at hs
    exact ⟨hback s' hs.1, trivial⟩
  | error e s' =>
    rw [hres] at hs
    exact hback s' hs
  | timeout => trivial

end Rules

/-- A run ends in a state that is later than `s`. -/
def Ends {α : Type} (s : InterpState) : Res InterpState Signal α → Prop
  | .ok _ s' => Within s s'
  | .error _ s' => Within s s'
  | .timeout => True

section Ends

variable {α β : Type} {m : Interp α} {f : α → Interp β}

theorem Steady.of_ends (h : ∀ s, Ends s (m s)) : Steady m := by
  intro s
  have hs := h s
  unfold Ensures
  cases hres : m s with
  | ok a s' =>
    rw [hres] at hs
    exact ⟨hs, trivial⟩
  | error e s' =>
    rw [hres] at hs
    exact hs
  | timeout => trivial

/-- The next part starts in a state that is later than `s`. -/
theorem Within.bind (h : Within s s') (hm : Steady m)
    (hf : ∀ a s'', Within s s'' → Ends s (f a s'')) : Ends s ((m >>= f) s') := by
  rw [bind_apply]
  cases hres : m s' with
  | ok a s'' => exact hf a s'' (h.trans (hm.rel hres))
  | error e s'' => exact h.trans (hm.err hres)
  | timeout => trivial

end Ends

/-! ## Operations on the state -/

section Operations

variable {α : Type}

theorem fault_steady (e : Fault) : Steady (fault e : Interp α) := by
  cases e <;> exact Steady.throw _

theorem ofExcept_steady (r : Except Fault α) : Steady (ofExcept r) := by
  cases r with
  | ok a => exact Follows.pure a
  | error e => exact fault_steady e

theorem onWorld_steady (f : World → α × World) : Steady (onWorld f) :=
  fun _ => ⟨.of_eq rfl rfl rfl rfl, trivial⟩

theorem getVar_steady (name : String) : Steady (getVar name) := by
  refine Follows.bind (Follows.gets _) fun s => ?_
  split
  · exact Follows.pure _
  · exact Steady.throw _

theorem defineAt_steady (p : Nat) (name : String) (v : Value) : Steady (defineAt p name v) :=
  Steady.modify fun _ => .of_eq rfl rfl (List.length_modify ..) rfl

theorem define_steady (name : String) (v : Value) : Steady (define name v) :=
  Follows.bind (Follows.gets _) fun p => defineAt_steady p name v

theorem setVar_steady (name : String) (v : Value) : Steady (setVar name v) := by
  refine Follows.bind (Follows.gets _) fun s => ?_
  split
  · exact defineAt_steady _ name v
  · exact define_steady name v

theorem newEnv_steady (parent : Nat) (fnBoundary : Bool) : Steady (newEnv parent fnBoundary) := by
  refine fun s => ⟨⟨rfl, rfl, ?_, .inl rfl⟩, trivial⟩
  rw [List.length_append]
  exact Nat.le_add_right _ _

theorem inScope_steady {m : Interp α} (hm : Steady m) : Steady (inScope m) :=
  Follows.bind (Follows.gets _) fun q => Follows.bind (newEnv_steady q false) fun p => hm.withEnv p

theorem newFunction_steady (f : LookFunction) : Steady (newFunction f) :=
  fun _ => ⟨.of_eq rfl rfl rfl rfl, trivial⟩

theorem write_steady (text : String) : Steady (write text) :=
  Steady.modify fun _ => .of_eq rfl rfl rfl rfl

end Operations

/-- The entry points of the recursion are steady. -/
structure SteadyRec (rec : InterpRec) : Prop where
  eval : ∀ e, Steady (rec.eval e)
  exec : ∀ s, Steady (rec.exec s)
  call : ∀ f args, Steady (rec.call f args)

/-- The native functions and modules do not touch the call depth and the call stack
themselves, and run in the environment they are called in or in one of their own. -/
structure SteadyHost (host : InterpHost) : Prop where
  native : ∀ eval, (∀ e, Steady (eval e)) → ∀ callee arguments m,
    host.native eval callee arguments = some m → Steady m
  scope : ∀ moduleName memberName, Steady (host.scope moduleName memberName)
  use : ∀ name, Steady (host.use name)
  useFile : ∀ path, Steady (host.useFile path)

variable {host : InterpHost} {rec : InterpRec}

/-! ## Expressions -/

theorem evalIncrement_steady (op : Value → Value → Except Fault Value) (name : String)
    (pre : Bool) : Steady (evalIncrement op name pre) :=
  Follows.bind (getVar_steady name) fun _ => Follows.bind (ofExcept_steady _) fun _ =>
    Follows.bind (setVar_steady name _) fun _ => Follows.pure _

theorem evalAssocLit_steady (hrec : SteadyRec rec) (pairs : List (Expr × Expr)) :
    Steady (evalAssocLit rec pairs) := by
  refine Follows.bind (Steady.mapEach fun kv => ?_) fun _ => onWorld_steady _
  exact Follows.bind (hrec.eval kv.1) fun _ => Follows.bind (hrec.eval kv.2) fun _ => Follows.pure _

theorem structLitFields_steady (hrec : SteadyRec rec) (fields : List (String × Expr))
    (defs : List StructFieldDef) : Steady (structLitFields rec fields defs) := by
  induction defs with
  | nil => exact Follows.pure _
  | cons d rest ih =>
    have hrest : ∀ v, Steady (do
        return .string d.name :: v :: (← structLitFields rec fields rest)) :=
      fun _ => Follows.bind ih fun _ => Follows.pure _
    unfold structLitFields
    dsimp only
    split
    · exact Follows.bind (hrec.eval _) hrest
    · split
      · exact Follows.bind (onWorld_steady _) hrest
      · exact hrest _
      · exact hrest _

theorem evalStructLit_steady (hrec : SteadyRec rec) (name : String)
    (fields : List (String × Expr)) : Steady (evalStructLit rec name fields) := by
  refine Follows.bind (Follows.gets _) fun defs => ?_
  split
  · exact Steady.throw _
  · split
    · exact Steady.throw _
    · exact Follows.bind (structLitFields_steady hrec fields _) fun _ => onWorld_steady _

theorem evalFunction_steady (parameters : List String) (defaults : List (Option Expr))
    (captures : List String) (variadic : Bool) (body : Block) :
    Steady (evalFunction parameters defaults captures variadic body) := by
  unfold evalFunction
  split
  · exact Follows.bind (Follows.gets _) fun _ => newFunction_steady _
  · refine Follows.bind (Follows.gets _) fun g => Follows.bind (newEnv_steady g false) fun p => ?_
    refine Follows.bind (Steady.forEach fun name => ?_) fun _ => newFunction_steady _
    exact Follows.bind (Follows.gets _) fun _ => defineAt_steady p name _

theorem evalCall_steady (hhost : SteadyHost host) (hrec : SteadyRec rec) (callee : Expr)
    (arguments : List Expr) : Steady (evalCall host rec callee arguments) := by
  unfold evalCall
  split
  next m hm => exact hhost.native rec.eval hrec.eval callee arguments m hm
  next =>
    refine Follows.bind (hrec.eval callee) fun fn => ?_
    split
    · refine Follows.bind (Steady.mapEach hrec.eval) fun args => ?_
      refine Follows.bind (Follows.gets _) fun fs => ?_
      split
      · exact hrec.call _ args
      · exact Steady.throw _
    · exact Steady.throw _
    · exact Steady.throw _

section Expressions

variable [DoubleOps]

theorem textOf_steady (v : Value) : Steady (textOf v) :=
  Follows.bind (Follows.gets _) fun _ => ofExcept_steady _

theorem truthy_steady (v : Value) : Steady (truthy v) :=
  Follows.bind (Follows.gets _) fun _ => Follows.pure _

theorem groupText_steady (hrec : SteadyRec rec) (inner : List Char) :
    Steady (groupText host rec inner) := by
  refine Steady.tryCatch ?_ fun e => Follows.ite (fun _ => Steady.throw _) fun _ => Follows.pure _
  split
  · exact Steady.throw _
  · exact Follows.bind (hrec.eval _) fun v => textOf_steady v
  · exact Follows.pure _

theorem interpolate_steady (hrec : SteadyRec rec) (turns : Nat) (cs : List Char) :
    Steady (interpolate host rec turns cs) := by
  induction turns generalizing cs with
  | zero => exact Follows.pure _
  | succ turns ih =>
    cases cs with
    | nil => exact Follows.pure _
    | cons c cs =>
      simp only [interpolate]
      split
      · exact Follows.bind (groupText_steady hrec _) fun _ =>
          Follows.bind (ih _) fun _ => Follows.pure _
      · exact Follows.bind (ih cs) fun _ => Follows.pure _

theorem evalStringLit_steady (hrec : SteadyRec rec) (value : String) (raw : Bool) :
    Steady (evalStringLit host rec value raw) := by
  refine Follows.ite (fun _ => Follows.pure _) fun _ => ?_
  exact Follows.bind (interpolate_steady hrec _ _) fun _ => Follows.pure _

theorem evalBinary_steady (hrec : SteadyRec rec) (left : Expr) (op : BinaryOp) (right : Expr) :
    Steady (evalBinary rec left op right) := by
  refine Follows.bind (hrec.eval left) fun l => ?_
  have hright : Steady (do return .bool (← truthy (← rec.eval right)) : Interp Value) :=
    Follows.bind (hrec.eval right) fun r => Follows.bind (truthy_steady r) fun _ => Follows.pure _
  have hboth : ∀ op', Steady (do
      let r ← rec.eval right
      ofExcept (binaryValue (← arrays) op' l r)) := fun op' =>
    Follows.bind (hrec.eval right) fun r => Follows.bind (Follows.gets _) fun _ => ofExcept_steady _
  cases op with
  | and =>
    exact Follows.bind (truthy_steady l) fun b => Follows.ite (fun _ => hright) fun _ =>
      Follows.pure _
  | or =>
    exact Follows.bind (truthy_steady l) fun b => Follows.ite (fun _ => Follows.pure _) fun _ =>
      hright
  | coalesce => exact Follows.ite (fun _ => Follows.pure l) fun _ => hrec.eval right
  | _ => exact hboth _

theorem evalUnary_steady (hrec : SteadyRec rec) (op : UnaryOp) (right : Expr) (pre : Bool) :
    Steady (evalUnary rec op right pre) := by
  unfold evalUnary
  split
  · exact evalIncrement_steady _ _ _
  · exact evalIncrement_steady _ _ _
  · exact Steady.throw _
  · exact Steady.throw _
  · exact Follows.bind (hrec.eval _) fun _ => Follows.pure _
  · exact Follows.bind (hrec.eval _) fun v => Follows.bind (truthy_steady v) fun _ => Follows.pure _
  · exact Follows.bind (hrec.eval _) fun _ => Follows.pure _

/-- The indexed assignment, when the object has been evaluated. -/
theorem assignTo_steady (hrec : SteadyRec rec) (target : String) (op : AssignOp) (obj val : Value)
    (key : Expr) :
    Steady (match obj with
      | .array _ => do
        let idx ← rec.eval key
        ofExcept (← onWorld fun w => let (w, r) := assignIndex w target op obj idx val; (r, w))
      | obj => do
        ofExcept (← onWorld fun w =>
          let (w, r) := assignIndex w target op obj .none val; (r, w))) := by
  split
  · exact Follows.bind (hrec.eval key) fun _ => Follows.bind (onWorld_steady _) fun _ =>
      ofExcept_steady _
  · exact Follows.bind (onWorld_steady _) fun _ => ofExcept_steady _

theorem evalAssign_steady (hrec : SteadyRec rec) (name : String) (op : AssignOp)
    (object key : Option Expr) (value : Expr) :
    Steady (evalAssign rec name op object key value) := by
  refine Follows.bind (hrec.eval value) fun val => ?_
  cases key with
  | some key =>
    cases object with
    | some o => exact Follows.bind (hrec.eval o) fun obj => assignTo_steady hrec _ op obj val key
    | none => exact Follows.bind (getVar_steady name) fun obj => assignTo_steady hrec _ op obj val key
  | none =>
    dsimp only
    split
    · exact Follows.bind (Follows.pure val) fun val =>
        Follows.bind (setVar_steady name val) fun _ => Follows.pure _
    · refine Follows.bind (Follows.gets _) fun _ => Follows.bind (getVar_steady name) fun _ => ?_
      exact Follows.bind (ofExcept_steady _) fun val =>
        Follows.bind (setVar_steady name val) fun _ => Follows.pure _

theorem evalExpr_steady (hhost : SteadyHost host) (hrec : SteadyRec rec) (e : Expr) :
    Steady (evalExpr host rec e) := by
  cases e with
  | stringLit value raw => exact evalStringLit_steady hrec value raw
  | arrayLit elements =>
    exact Follows.bind (Steady.mapEach hrec.eval) fun _ => onWorld_steady _
  | assocLit pairs => exact evalAssocLit_steady hrec pairs
  | function ps ds caps variadic body => exact evalFunction_steady ps ds caps variadic body
  | var name => exact getVar_steady name
  | index object key =>
    exact Follows.bind (hrec.eval object) fun _ => Follows.bind (hrec.eval key) fun _ =>
      Follows.bind (Follows.gets _) fun _ => ofExcept_steady _
  | unary op right pre => exact evalUnary_steady hrec op right pre
  | binary left op right => exact evalBinary_steady hrec left op right
  | assign name op object key value => exact evalAssign_steady hrec name op object key value
  | call callee arguments => exact evalCall_steady hhost hrec callee arguments
  | ternary c t e =>
    refine Follows.bind (hrec.eval c) fun v => Follows.bind (truthy_steady v) fun _ => ?_
    exact Follows.ite (fun _ => hrec.eval t) fun _ => hrec.eval e
  | scope moduleName memberName => exact hhost.scope moduleName memberName
  | iota => exact Follows.bind (Follows.gets _) fun _ => Follows.pure _
  | member object field =>
    exact Follows.bind (hrec.eval object) fun _ => Follows.bind (Follows.gets _) fun _ =>
      ofExcept_steady _
  | structLit name fields => exact evalStructLit_steady hrec name fields
  | _ => exact Follows.pure _

end Expressions

/-! ## Statements -/

theorem execBlock_steady (hrec : SteadyRec rec) (block : Block) : Steady (execBlock rec block) :=
  inScope_steady (Steady.forEach hrec.exec)

theorem loopBody_steady {m : Interp Unit} (hm : Steady m) : Steady (loopBody m) := by
  refine Steady.tryCatch (Follows.bind hm fun _ => Follows.pure _) fun e => ?_
  cases e <;> first | exact Follows.pure _ | exact Steady.throw _

theorem loop_steady {cond : Interp Bool} {body : Interp Turn} {post : Interp Unit}
    (hcond : Steady cond) (hbody : Steady body) (hpost : Steady post) (turns : Nat) :
    Steady (loop cond body post turns) := by
  induction turns with
  | zero => exact Steady.timeout
  | succ turns ih =>
    refine Follows.bind hcond fun b => Follows.ite (fun _ => ?_) fun _ => Follows.pure _
    refine Follows.bind hbody fun t => ?_
    cases t with
    | next => exact Follows.bind hpost fun _ => ih
    | leave => exact Follows.pure _

theorem foreachTurn_steady (hrec : SteadyRec rec) (keyVar valueVar : String) (body : Block)
    (key val : Value) : Steady (foreachTurn rec keyVar valueVar body key val) := by
  refine loopBody_steady (inScope_steady ?_)
  have hbody : Steady (do define valueVar val; forEach body rec.exec) :=
    Follows.bind (define_steady valueVar val) fun _ => Steady.forEach hrec.exec
  dsimp only
  split
  · exact Follows.bind (define_steady keyVar key) fun _ => hbody
  · exact hbody

theorem foreachFrom_steady {turn : Value → Value → Interp Turn}
    (hturn : ∀ k v, Steady (turn k v)) (p : Nat) (assoc : Bool) (turns idx : Nat) :
    Steady (foreachFrom p assoc turn turns idx) := by
  induction turns generalizing idx with
  | zero => exact Steady.timeout
  | succ turns ih =>
    refine Follows.bind (Follows.gets _) fun vec => Follows.ite (fun _ => ?_) fun _ => Follows.pure _
    dsimp only
    split
    · refine Follows.bind (hturn _ _) fun t => ?_
      cases t with
      | leave => exact Follows.pure _
      | next => exact ih _
    · refine Follows.bind (hturn _ _) fun t => ?_
      cases t with
      | leave => exact Follows.pure _
      | next => exact ih _

theorem execFinally_steady (hrec : SteadyRec rec) (block : Option Block) :
    Steady (execFinally rec block) := by
  cases block with
  | none => exact Follows.pure _
  | some b => exact execBlock_steady hrec b

theorem execTry_steady (hrec : SteadyRec rec) (tryBlock : Block) (catchVar : String)
    (catchBlock finallyBlock : Option Block) :
    Steady (execTry rec tryBlock catchVar catchBlock finallyBlock) := by
  refine Follows.bind (Steady.tryCatch (execBlock_steady hrec tryBlock) fun e => ?_) fun _ =>
    execFinally_steady hrec finallyBlock
  have hfinally : ∀ e, Steady (do execFinally rec finallyBlock; Exec.throw e : Interp Unit) :=
    fun e => Follows.bind (execFinally_steady hrec finallyBlock) fun _ => Steady.throw e
  have hcatch : ∀ block, Steady (Exec.tryCatch (execBlock rec block) fun e => do
      if leavesCatch e then execFinally rec finallyBlock
      Exec.throw e) := by
    refine fun block => Steady.tryCatch (execBlock_steady hrec block) fun e => ?_
    dsimp only
    split
    · exact hfinally e
    · exact Steady.throw e
  have hcaught : ∀ v block, Steady (do
      if catchVar ≠ "" then define catchVar v
      Exec.tryCatch (execBlock rec block) fun e => do
        if leavesCatch e then execFinally rec finallyBlock
        Exec.throw e) := by
    intro v block
    dsimp only
    split
    · exact Follows.bind (define_steady catchVar _) fun _ => hcatch _
    · exact hcatch _
  dsimp only
  split
  · refine Follows.bind (Steady.throw e) fun _ => ?_
    split
    · exact hcaught _ _
    · exact hfinally e
  · split
    · exact hcaught _ _
    · exact hfinally e

theorem runCase_steady (hrec : SteadyRec rec) (body : Block) : Steady (runCase rec body) := by
  refine Steady.tryCatch (inScope_steady (Steady.forEach hrec.exec)) fun e => ?_
  exact Follows.ite (fun _ => Follows.pure _) fun _ => Steady.throw e

theorem structField_steady (hrec : SteadyRec rec) (field : String × Option Expr) :
    Steady (structField rec field) := by
  unfold structField
  split
  · exact Follows.bind (hrec.eval _) fun _ => Follows.pure _
  · exact Follows.pure _

theorem execStructDecl_steady (hrec : SteadyRec rec) (name : String)
    (fields : List (String × Option Expr)) : Steady (execStructDecl rec name fields) :=
  Follows.bind (Steady.mapEach (structField_steady hrec)) fun _ =>
    Steady.modify fun _ => .of_eq rfl rfl rfl rfl

theorem constItems_steady (hrec : SteadyRec rec) (i : Nat) (last : Option Expr)
    (items : List (String × Option Expr)) : Steady (constItems rec i last items) := by
  induction items generalizing i last with
  | nil => exact Follows.pure _
  | cons item rest ih =>
    obtain ⟨name, init⟩ := item
    refine Follows.bind (Steady.modify fun _ => .of_eq rfl rfl rfl rfl) fun _ => ?_
    dsimp only
    split
    · exact Follows.bind (hrec.eval _) fun v => Follows.bind (setVar_steady name v) fun _ => ih _ _
    · exact Follows.bind (Follows.pure _) fun v =>
        Follows.bind (setVar_steady name v) fun _ => ih _ _

theorem execConstBlock_steady (hrec : SteadyRec rec) (items : List (String × Option Expr)) :
    Steady (execConstBlock rec items) :=
  Follows.bind (constItems_steady hrec 0 none items) fun _ =>
    Steady.modify fun _ => .of_eq rfl rfl rfl rfl

theorem execFuncDecl_steady (name : String) (parameters : List String)
    (defaults : List (Option Expr)) (variadic : Bool) (body : Block) :
    Steady (execFuncDecl name parameters defaults variadic body) := by
  have hdecl : Steady (do
      let closure ← gets InterpState.current
      let fn ← newFunction
        { name := name, parameters := parameters, variadic := variadic, body := body,
          closure := closure, defaults := defaults }
      define name fn) :=
    Follows.bind (Follows.gets _) fun _ => Follows.bind (newFunction_steady _) fun fn =>
      define_steady name fn
  unfold execFuncDecl
  split
  · exact Follows.bind (Steady.throw _) fun _ => hdecl
  · exact hdecl

theorem execForeach_steady (hrec : SteadyRec rec) (turns : Nat) (iterable : Expr)
    (keyVar valueVar : String) (body : Block) :
    Steady (execForeach rec turns iterable keyVar valueVar body) := by
  refine Follows.bind (hrec.eval iterable) fun v => ?_
  split
  · exact Follows.bind (Follows.gets _) fun _ =>
      foreachFrom_steady (foreachTurn_steady hrec keyVar valueVar body) _ _ _ _
  · exact Steady.throw _

section Statements

variable [DoubleOps]

/-- A `for` that throws leaves its scope current, which is a new one. -/
theorem execFor_steady (hrec : SteadyRec rec) (turns : Nat) (init : Option Stmt)
    (c post : Option Expr) (body : Block) : Steady (execFor rec turns init c post body) := by
  refine Steady.of_ends fun s => ?_
  have hnew : Within s { s with
      envs := s.envs ++ [{ values := [], parent := some s.current, fnBoundary := false }]
      current := s.envs.length } := by
    refine ⟨rfl, rfl, ?_, .inr (Nat.le_refl _)⟩
    rw [List.length_append]
    exact Nat.le_add_right _ _
  have hend : ∀ {m : Interp Unit}, Steady m → ∀ s', Within s s' →
      Ends s ((m >>= fun _ => setCurrent s.current) s') :=
    fun hm s' h => h.bind hm fun _ s'' h' => h'.back
  have hloop : ∀ {m : Interp Bool} {p : Interp Unit}, Steady m → Steady p → ∀ s', Within s s' →
      Ends s ((loop m (loopBody (execBlock rec body)) p turns >>= fun _ => setCurrent s.current) s') :=
    fun hm hp => hend (loop_steady hm (loopBody_steady (execBlock_steady hrec body)) hp turns)
  have hcond : ∀ e, Steady (do truthy (← rec.eval e)) :=
    fun e => Follows.bind (hrec.eval e) fun v => truthy_steady v
  have hpost : ∀ e, Steady (do let _ ← rec.eval e) :=
    fun e => Follows.bind (hrec.eval e) fun _ => Follows.pure _
  cases init with
  | some i =>
    refine hnew.bind (hrec.exec i) fun _ s' h => hloop ?_ ?_ s' h
    · cases c with
      | some c => exact hcond c
      | none => exact Follows.pure _
    · cases post with
      | some e => exact hpost e
      | none => exact Follows.pure _
  | none =>
    refine hloop ?_ ?_ _ hnew
    · cases c with
      | some c => exact hcond c
      | none => exact Follows.pure _
    · cases post with
      | some e => exact hpost e
      | none => exact Follows.pure _

theorem execWhile_steady (hrec : SteadyRec rec) (turns : Nat) (c : Expr) (body : Block) :
    Steady (execWhile rec turns c body) :=
  loop_steady (Follows.bind (hrec.eval c) fun v => truthy_steady v)
    (loopBody_steady (execBlock_steady hrec body)) (Follows.pure _) turns

theorem buildOutput_steady (hrec : SteadyRec rec) (isFirst : Bool) (es : List Expr) :
    Steady (buildOutput rec isFirst es) := by
  induction es generalizing isFirst with
  | nil => exact Follows.pure _
  | cons e rest ih =>
    exact Follows.bind (hrec.eval e) fun v => Follows.bind (textOf_steady v) fun _ =>
      Follows.bind (ih false) fun _ => Follows.pure _

theorem matchesAny_steady (hrec : SteadyRec rec) (subject : Value) (es : List Expr) :
    Steady (matchesAny rec subject es) := by
  induction es with
  | nil => exact Follows.pure _
  | cons e rest ih =>
    exact Follows.bind (hrec.eval e) fun _ => Follows.ite (fun _ => Follows.pure _) fun _ => ih

theorem switchFrom_steady (hrec : SteadyRec rec) (subject : Value)
    (cases : List (List Expr × Block)) (dflt : Option Block) :
    Steady (switchFrom rec subject cases dflt) := by
  induction cases generalizing dflt with
  | nil =>
    cases dflt with
    | none => exact Follows.pure _
    | some body => exact runCase_steady hrec body
  | cons c rest ih =>
    obtain ⟨values, body⟩ := c
    refine Follows.ite (fun _ => ih (some body)) fun _ => ?_
    exact Follows.bind (matchesAny_steady hrec subject values) fun _ =>
      Follows.ite (fun _ => runCase_steady hrec body) fun _ => ih dflt

theorem execKind_steady (hhost : SteadyHost host) (hrec : SteadyRec rec) (turns : Nat)
    (k : StmtKind) : Steady (execKind host rec turns k) := by
  cases k with
  | expression e => exact Follows.bind (hrec.eval e) fun _ => Follows.pure _
  | print es => exact Follows.bind (buildOutput_steady hrec true es) fun _ => write_steady _
  | write es => exact Follows.bind (buildOutput_steady hrec true es) fun _ => write_steady _
  | ret e =>
    cases e with
    | none => exact Steady.throw _
    | some e => exact Follows.bind (hrec.eval e) fun _ => Steady.throw _
  | throw e =>
    exact Follows.bind (hrec.eval e) fun v => Follows.bind (textOf_steady v) fun _ =>
      Steady.throw _
  | «break» => exact Steady.throw _
  | «continue» => exact Steady.throw _
  | use name => exact hhost.use name
  | useFile path => exact hhost.useFile path
  | block b => exact execBlock_steady hrec b
  | «if» c t e =>
    refine Follows.bind (hrec.eval c) fun v => Follows.bind (truthy_steady v) fun _ => ?_
    refine Follows.ite (fun _ => execBlock_steady hrec t) fun _ => ?_
    cases e with
    | none => exact Follows.pure _
    | some e => exact execBlock_steady hrec e
  | «while» c body => exact execWhile_steady hrec turns c body
  | «for» init c post body => exact execFor_steady hrec turns init c post body
  | foreach it k v body => exact execForeach_steady hrec turns it k v body
  | tryCatch t x c f => exact execTry_steady hrec t x c f
  | switch subject cases =>
    exact Follows.bind (hrec.eval subject) fun v => switchFrom_steady hrec v cases none
  | constBlock items => exact execConstBlock_steady hrec items
  | structDecl name fields => exact execStructDecl_steady hrec name fields
  | functionDecl name ps ds variadic body => exact execFuncDecl_steady name ps ds variadic body

theorem execStmt_steady (hhost : SteadyHost host) (hrec : SteadyRec rec) (turns : Nat)
    (st : Stmt) : Steady (execStmt host rec turns st) := by
  cases st with
  | mk line k => exact execKind_steady hhost hrec turns k

end Statements

end Interp

end Look
