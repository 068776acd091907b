/-
What a node of a template does, and the trace of a rendering.

A node writes something, or decides something, and then renders lists of nodes.  `plan` is
that: the event of the node itself and the calls of `render` it makes.  `renderNode` runs the
plan (`renderNode_eq`), so that what holds of every plan holds of the rendering.  `trace`
keeps the events in order, and the output is what they write (`render_eq_trace`).
-/
import Look.Lib.Loop
import Look.Template.Render

namespace Look

namespace Template

open Exec

/-! ## Plans -/

/-- A call of `render`. -/
structure Call where
  blocks : Option Blocks
  nodes : List Node
  ctx : Ctx

/-- What a node writes, and what it decides. -/
inductive Event where
  | text (t : Bytes)
  | var (path : Bytes) (v : Value)
  | rawVar (path : Bytes) (v : Value)
  | branch (b : Bool)
  | rounds (n : Nat)

def Event.bytes [DoubleOps] : Event → Bytes
  | .text t => t
  | .var _ v => htmlEscape (toStr v)
  | .rawVar _ v => toStr v
  | _ => []

/-- The events of a node, its calls, and what becomes of an exception. -/
structure Plan where
  events : List Event
  calls : List Call
  wrap : Error → Error

/-- What `{#each}` goes through; nothing if the value is no array. -/
def elementsOf : Value → List Value
  | .array arr => eachElements arr
  | _ => []

def eachCalls (blocks : Option Blocks) (ctx : Ctx) (item : Bytes) (children alt : List Node)
    (elements : List Value) : List Call :=
  if elements = [] then [⟨blocks, alt, ctx⟩]
  else elements.map fun elem => ⟨blocks, children, AssocList.upsert item elem ctx⟩

variable (load : Bytes → Except Error Bytes)

/-- The call with which a template begins: itself, or its parent with its blocks. -/
def entry (nodes : List Node) (ctx : Ctx) : Outcome Call :=
  match parentOf nodes with
  | some path => do
    let parent ← loadNodes load path
    pure ⟨some (collectBlocks [] nodes), parent, ctx⟩
  | none => pure ⟨none, nodes, ctx⟩

def includeError (path e : Error) : Error :=
  ascii "Template include error (" ++ path ++ ascii "): " ++ e

def includeCall (path : Bytes) (ctx : Ctx) : Outcome Call :=
  tryCatch (do
      let nodes ← loadNodes load path
      entry load nodes ctx)
    fun e => throw (includeError path e)

def plan [DoubleOps] (blocks : Option Blocks) (ctx : Ctx) : Node → Outcome Plan
  | .text t => pure ⟨[.text t], [], id⟩
  | .var path => do
    let v ← resolve path ctx
    pure ⟨[.var path v], [], id⟩
  | .rawVar path => do
    let v ← resolve path ctx
    pure ⟨[.rawVar path v], [], id⟩
  | .cond condition children alt => do
    let b ← evalCond condition ctx
    pure ⟨[.branch b], [⟨blocks, if b then children else alt, ctx⟩], id⟩
  | .each list item children alt => do
    let v ← resolve list ctx
    pure ⟨[.rounds (elementsOf v).length], eachCalls blocks ctx item children alt (elementsOf v), id⟩
  | .extends _ => pure ⟨[], [], id⟩
  | .block name children =>
    pure ⟨[], [⟨blocks, (blocks.bind (AssocList.lookup name)).getD children, ctx⟩], id⟩
  | .include path data => do
    let incCtx ← includeContext data ctx
    let call ← includeCall load path incCtx
    pure ⟨[], [call], includeError path⟩

/-- A plan is run: what the events give, then what the calls give. -/
def Plan.run {α : Type} (own : Event → List α) (sub : Call → Outcome (List α)) (p : Plan) :
    Outcome (List α) :=
  tryCatch (do
      let parts ← mapEach p.calls sub
      pure (p.events.flatMap own ++ parts.flatten))
    fun e => throw (p.wrap e)

theorem Plan.run_apply {α : Type} (own : Event → List α) (sub : Call → Outcome (List α)) (p : Plan)
    (u : Unit) :
    p.run own sub u = match mapEach p.calls sub u with
      | .ok parts u => .ok (p.events.flatMap own ++ parts.flatten) u
      | .error e u => .error (p.wrap e) u
      | .timeout => .timeout := by
  rw [Plan.run, tryCatch_apply, bind_apply]
  cases mapEach p.calls sub u <;> rfl

theorem Plan.run_eq_ok {α : Type} {own : Event → List α} {sub : Call → Outcome (List α)} {p : Plan}
    {out : List α} (h : p.run own sub () = .ok out ()) :
    ∃ parts, List.Forall₂ (fun c part => sub c () = .ok part ()) p.calls parts ∧
      out = p.events.flatMap own ++ parts.flatten := by
  rw [Plan.run_apply] at h
  cases hparts : mapEach p.calls sub () with
  | ok parts u =>
    rw [hparts] at h
    cases h
    exact ⟨parts, mapEach_eq_ok.mp hparts, rfl⟩
  | error e u =>
    rw [hparts] at h
    cases h
  | timeout =>
    rw [hparts] at h
    cases h

/-! ## The rendering runs the plan -/

section RenderNode

variable (render : Option Blocks → List Node → Ctx → Outcome Bytes)

theorem renderNodes_eq (nodes : List Node) (ctx : Ctx) :
    renderNodes load render nodes ctx =
      entry load nodes ctx >>= fun c => render c.blocks c.nodes c.ctx := by
  unfold renderNodes entry
  cases parentOf nodes with
  | none => rfl
  | some path =>
    funext u
    simp only [bind_apply]
    cases loadNodes load path u <;> rfl

theorem renderNode_eq [DoubleOps] (blocks : Option Blocks) (ctx : Ctx) (n : Node) :
    renderNode load render blocks ctx n =
      plan load blocks ctx n >>= fun p => p.run Event.bytes fun c => render c.blocks c.nodes c.ctx := by
  funext u
  cases n with
  | text t => simp [renderNode, plan, bind_apply, Plan.run_apply, mapEach_nil, Event.bytes]
  | var path =>
    simp only [renderNode, plan, bind_apply]
    cases resolve path ctx u with
    | ok v u => simp [Plan.run_apply, mapEach_nil, Event.bytes]
    | error e u => rfl
    | timeout => rfl
  | rawVar path =>
    simp only [renderNode, plan, bind_apply]
    cases resolve path ctx u with
    | ok v u => simp [Plan.run_apply, mapEach_nil, Event.bytes]
    | error e u => rfl
    | timeout => rfl
  | cond condition children alt =>
    simp only [renderNode, plan, bind_apply]
    cases evalCond condition ctx u with
    | ok b u =>
      cases b with
      | true =>
        simp only [pure_apply, Plan.run_apply, mapEach_singleton, if_pos]
        cases render blocks children ctx u <;> simp [Event.bytes]
      | false =>
        simp only [pure_apply, Plan.run_apply, mapEach_singleton, Bool.false_eq_true, if_false]
        cases render blocks alt ctx u <;> simp [Event.bytes]
    | error e u => rfl
    | timeout => rfl
  | each list item children alt =>
    simp only [renderNode, plan, bind_apply]
    cases resolve list ctx u with
    | ok v u =>
      simp only [pure_apply, Plan.run_apply]
      cases v with
      | array arr =>
        by_cases hempty : eachElements arr = []
        · simp only [elementsOf, eachCalls, hempty, List.isEmpty_nil, if_pos, mapEach_singleton]
          cases render blocks alt ctx u <;> simp [Event.bytes]
        · have hcalls : eachCalls blocks ctx item children alt (eachElements arr) =
              (eachElements arr).map fun elem =>
                ⟨blocks, children, AssocList.upsert item elem ctx⟩ := if_neg hempty
          simp only [elementsOf, List.isEmpty_iff, if_neg hempty, hcalls, mapEach_map, bind_apply]
          cases mapEach (eachElements arr) (fun elem =>
            render blocks children (AssocList.upsert item elem ctx)) u <;> simp [Event.bytes]
      | _ =>
        simp only [elementsOf, eachCalls, if_pos, mapEach_singleton]
        cases render blocks alt ctx u <;> simp [Event.bytes]
    | error e u => rfl
    | timeout => rfl
  | «extends» path => simp [renderNode, plan, bind_apply, Plan.run_apply, mapEach_nil]
  | block name children =>
    simp only [renderNode, plan, bind_apply, pure_apply, Plan.run_apply, mapEach_singleton]
    cases hb : blocks.bind (AssocList.lookup name) with
    | some content =>
      simp only [Option.getD_some]
      cases render blocks content ctx u <;> simp
    | none =>
      simp only [Option.getD_none]
      cases render blocks children ctx u <;> simp
  | «include» path data =>
    simp only [renderNode, plan, bind_apply, includeCall, tryCatch_apply, renderNodes_eq]
    cases includeContext data ctx u with
    | ok incCtx u =>
      cases hload : loadNodes load path u with
      | ok nodes u =>
        cases hentry : entry load nodes incCtx u with
        | ok c u =>
          simp only [hload, hentry, pure_apply, Plan.run_apply, mapEach_singleton]
          cases render c.blocks c.nodes c.ctx u <;> simp [includeError]
        | error e u => simp [hload, hentry, includeError]
        | timeout => simp [hload, hentry]
      | error e u => simp [hload, includeError]
      | timeout => simp [hload]
    | error e u => rfl
    | timeout => rfl

end RenderNode

/-! ## Traces -/

section Trace

theorem flatten_map_flatMap {α β : Type} (f : α → List β) (ls : List (List α)) :
    (ls.map (List.flatMap f)).flatten = ls.flatten.flatMap f := by
  induction ls with
  | nil => rfl
  | cons l ls ih => rw [List.map_cons, List.flatten_cons, List.flatten_cons, List.flatMap_append, ih]

variable [DoubleOps]

/-- The events of a call of `render`. -/
def trace : Nat → Call → Outcome (List Event)
  | 0, _ => timeout
  | fuel + 1, c => do
    let parts ← mapEach c.nodes fun n => do
      let p ← plan load c.blocks c.ctx n
      p.run (fun e => [e]) (trace fuel)
    pure parts.flatten

def renderCall (fuel : Nat) (c : Call) : Outcome Bytes := render load fuel c.blocks c.nodes c.ctx

/-- The output is what the events write, in order. -/
theorem renderCall_eq_trace (fuel : Nat) (c : Call) (u : Unit) :
    renderCall load fuel c u = (trace load fuel c u).map (List.flatMap Event.bytes) := by
  induction fuel generalizing c u with
  | zero => rfl
  | succ fuel ih =>
    have hnode : ∀ n u, renderNode load (render load fuel) c.blocks c.ctx n u =
        ((plan load c.blocks c.ctx n >>= fun p => p.run (fun e => [e]) (trace load fuel)) u).map
          (List.flatMap Event.bytes) := by
      intro n u
      rw [renderNode_eq, bind_apply, bind_apply]
      cases plan load c.blocks c.ctx n u with
      | ok p u =>
        have hcalls := mapEach_res_map (r := renderCall load fuel) _ ih p.calls u
        unfold renderCall at hcalls
        dsimp only
        rw [Plan.run_apply, Plan.run_apply, hcalls]
        cases mapEach p.calls (trace load fuel) u <;>
          simp [Res.map, flatten_map_flatMap, List.flatMap_singleton']
      | error e u => rfl
      | timeout => rfl
    rw [renderCall, render, trace, bind_apply, bind_apply, mapEach_res_map _ hnode]
    cases mapEach c.nodes (fun n =>
      plan load c.blocks c.ctx n >>= fun p => p.run (fun e => [e]) (trace load fuel)) u <;>
        simp [Res.map, flatten_map_flatMap]

/-- The events of a node are its own and those of its calls. -/
def NodeTrace (fuel : Nat) (c : Call) (n : Node)
    (part : List Event) : Prop :=
  ∃ p subs, plan load c.blocks c.ctx n () = .ok p () ∧
    List.Forall₂ (fun c' sub => trace load fuel c' () = .ok sub ()) p.calls subs ∧
    part = p.events ++ subs.flatten

variable {load}

theorem trace_eq_ok {fuel : Nat} {c : Call} {es : List Event}
    (h : trace load (fuel + 1) c () = .ok es ()) :
    ∃ parts, List.Forall₂ (NodeTrace load fuel c) c.nodes parts ∧ es = parts.flatten := by
  rw [trace] at h
  obtain ⟨parts, _, hparts, h⟩ := bind_eq_ok.mp h
  cases h
  refine ⟨parts, (mapEach_eq_ok.mp hparts).imp fun n part hn => ?_, rfl⟩
  obtain ⟨p, _, hplan, hrun⟩ := bind_eq_ok.mp hn
  obtain ⟨subs, hsubs, hpart⟩ := Plan.run_eq_ok hrun
  exact ⟨p, subs, hplan, hsubs, by rw [hpart, List.flatMap_singleton']⟩

end Trace

end Template

end Look
