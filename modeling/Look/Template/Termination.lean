/-
When a rendering comes to an end.

A call of `render` makes calls for its nodes, and they for theirs.  What `{#if}`, `{#each}`,
`{#include}` and a block without an entry render is smaller or in another file, so that
plain calls end if includes form no cycle (`acc_plain`).  A block with an entry in the table is
replaced, and nothing bounds that: the rendering ends exactly if there is no infinite chain of
replacements (`render_ends_iff`).  A block inside a block of the same name is such a chain.
-/
import Look.Lib.Chain
import Look.Template.Literal
import Look.Template.Tree

namespace Look

namespace Template

open Exec Relation

/-! ## What a node does needs no fuel -/

def Ended {α : Type} (m : Outcome α) : Prop := m () ≠ .timeout

section Ended

variable {α β : Type} {m : Outcome α}

theorem Ended.pure (a : α) : Ended (Pure.pure a) := nofun

theorem Ended.throw (e : Error) : Ended (throw e : Outcome α) := nofun

theorem Ended.bind {f : α → Outcome β} (hm : Ended m) (hf : ∀ a, Ended (f a)) : Ended (m >>= f) := by
  unfold Ended at hm ⊢
  rw [bind_apply]
  cases h : m () with
  | ok a u => exact hf a
  | error e u => nofun
  | timeout => exact absurd h hm

theorem Ended.tryCatch {h : Error → Outcome α} (hm : Ended m) (hh : ∀ e, Ended (h e)) :
    Ended (Exec.tryCatch m h) := by
  unfold Ended at hm ⊢
  rw [tryCatch_apply]
  cases hr : m () with
  | ok a u => nofun
  | error e u => exact hh e
  | timeout => exact absurd hr hm

end Ended

theorem field_ended (key : Bytes) (v : Value) : Ended (field key v) := by
  cases v with
  | array arr =>
    rw [field]
    cases findKey key (pairs arr) with
    | some v => exact .pure v
    | none =>
      dsimp only
      split
      · refine Ended.bind ?_ fun idx => .pure _
        unfold stoi
        dsimp only
        split
        · exact .throw _
        · exact .pure _
      · exact .pure _
  | _ => exact .pure _

theorem fields_ended (v : Value) (keys : List Bytes) : Ended (fields v keys) := by
  induction keys generalizing v with
  | nil => exact .pure v
  | cons key keys ih => exact (field_ended key v).bind fun v => ih v

theorem resolve_ended (path : Bytes) (ctx : Ctx) : Ended (resolve path ctx) := by
  unfold resolve
  cases (path.splitOn 0x2E).filter (· ≠ []) with
  | nil => exact .pure _
  | cons name keys =>
    dsimp only
    cases AssocList.lookup name ctx with
    | some v => exact fields_ended v keys
    | none => exact .pure _

theorem loadNodes_ended (load : Bytes → Except Error Bytes) (path : Bytes) :
    Ended (loadNodes load path) := by
  unfold Ended loadNodes
  cases load path with
  | error e => nofun
  | ok src =>
    dsimp only
    cases h : parse path src with
    | ok p r => nofun
    | error e r => nofun
    | timeout => exact absurd h (parse_ne_timeout src)

section Plans

variable {load : Bytes → Except Error Bytes}

theorem entry_ended (nodes : List Node) (ctx : Ctx) : Ended (entry load nodes ctx) := by
  unfold entry
  cases parentOf nodes with
  | none => exact .pure _
  | some path => exact (loadNodes_ended load path).bind fun parent => .pure _

theorem Plan.run_approx {α : Type} {own : Event → List α} {sub sub' : Call → Outcome (List α)}
    (h : ∀ c u, Approx (sub c u) (sub' c u)) (p : Plan) (u : Unit) :
    Approx (p.run own sub u) (p.run own sub' u) := by
  rw [Plan.run_apply, Plan.run_apply]
  obtain hcalls | hcalls := Approx.mapEach h p.calls u
  · rw [hcalls]
    exact .inl rfl
  · rw [hcalls]
    exact .refl _

variable [DoubleOps]

theorem parseRhs_ended (rhs : Bytes) (ctx : Ctx) : Ended (parseRhs rhs ctx) := by
  unfold parseRhs
  dsimp only
  split
  · exact .pure _
  split
  · exact resolve_ended _ _
  split
  · exact .pure _
  split
  · exact .pure _
  · exact .pure _

theorem evalCond_ended (condition : Bytes) (ctx : Ctx) : Ended (evalCond condition ctx) := by
  unfold evalCond
  dsimp only
  split
  · exact (resolve_ended _ _).bind fun lv => (parseRhs_ended _ _).bind fun rv => .pure _
  · exact (resolve_ended _ _).bind fun v => .pure _

theorem plan_ended (blocks : Option Blocks) (ctx : Ctx) (n : Node) : Ended (plan load blocks ctx n) := by
  cases n with
  | text t => exact .pure _
  | var path => exact (resolve_ended _ _).bind fun v => .pure _
  | rawVar path => exact (resolve_ended _ _).bind fun v => .pure _
  | cond condition children alt => exact (evalCond_ended _ _).bind fun b => .pure _
  | each list item children alt => exact (resolve_ended _ _).bind fun v => .pure _
  | «extends» path => exact .pure _
  | block name children => exact .pure _
  | «include» path data =>
    refine Ended.bind ?_ fun incCtx => Ended.bind ?_ fun call => .pure _
    · unfold includeContext
      split
      · exact .pure _
      · refine (resolve_ended _ _).bind fun v => ?_
        cases v <;> exact .pure _
    · exact ((loadNodes_ended load path).bind fun nodes => entry_ended nodes incCtx).tryCatch
        fun e => .throw _

/-! ## More fuel -/

theorem trace_approx {fuel fuel' : Nat} (h : fuel ≤ fuel') (c : Call) (u : Unit) :
    Approx (trace load fuel c u) (trace load fuel' c u) := by
  induction fuel generalizing fuel' c u with
  | zero => exact .inl rfl
  | succ fuel ih =>
    cases fuel' with
    | zero => exact absurd h (Nat.not_succ_le_zero fuel)
    | succ fuel' =>
      rw [trace, trace]
      refine .bind (.mapEach (fun n u => ?_) _ u) fun parts u => .refl _
      exact .bind (.refl _) fun p u => Plan.run_approx (ih (Nat.le_of_succ_le_succ h)) p u

/-- What the trace does with a node. -/
def nodeTrace (load : Bytes → Except Error Bytes) (fuel : Nat) (c : Call) (n : Node) :
    Outcome (List Event) := do
  let p ← plan load c.blocks c.ctx n
  p.run (fun e => [e]) (trace load fuel)

theorem trace_succ (fuel : Nat) (c : Call) :
    trace load (fuel + 1) c =
      (mapEach c.nodes (nodeTrace load fuel c) >>= fun parts => pure parts.flatten) := rfl

theorem nodeTrace_approx {fuel fuel' : Nat} (h : fuel ≤ fuel') (c : Call) (n : Node) (u : Unit) :
    Approx (nodeTrace load fuel c n u) (nodeTrace load fuel' c n u) :=
  .bind (.refl _) fun p u => Plan.run_approx (trace_approx h) p u

/-! ## Calls -/

variable (load)

/-- The call returns. -/
inductive Passes : Call → Prop where
  | intro {c : Call} (plans : Node → Plan)
    (hplan : ∀ n ∈ c.nodes, plan load c.blocks c.ctx n () = .ok (plans n) ())
    (hcalls : ∀ n ∈ c.nodes, ∀ d ∈ (plans n).calls, Passes d) : Passes c

def NodePasses (c : Call) (n : Node) : Prop :=
  ∃ p, plan load c.blocks c.ctx n () = .ok p () ∧ ∀ d ∈ p.calls, Passes load d

/-- The call `c` comes to its node `n` and makes the call `d` for it. -/
def Renders (c : Call) (n : Node) (d : Call) : Prop :=
  ∃ before after p ds ds', c.nodes = before ++ n :: after ∧ (∀ m ∈ before, NodePasses load c m) ∧
    plan load c.blocks c.ctx n () = .ok p () ∧ p.calls = ds ++ d :: ds' ∧ ∀ e ∈ ds, Passes load e

variable {load}

theorem Passes.of_nodes {c : Call} (h : ∀ n ∈ c.nodes, NodePasses load c n) : Passes load c := by
  have hplans : ∀ n, ∃ p, n ∈ c.nodes → plan load c.blocks c.ctx n () = .ok p () ∧
      ∀ d ∈ p.calls, Passes load d := by
    intro n
    by_cases hn : n ∈ c.nodes
    · obtain ⟨p, hp⟩ := h n hn
      exact ⟨p, fun _ => hp⟩
    · exact ⟨⟨[], [], id⟩, fun hn' => absurd hn' hn⟩
  choose plans hplans using hplans
  exact .intro plans (fun n hn => (hplans n hn).1) fun n hn => (hplans n hn).2

theorem passes_of_trace {fuel : Nat} {c : Call} {es : List Event}
    (h : trace load fuel c () = .ok es ()) : Passes load c := by
  induction fuel generalizing c es with
  | zero => cases h
  | succ fuel ih =>
    obtain ⟨parts, hparts, rfl⟩ := trace_eq_ok h
    refine .of_nodes fun n hn => ?_
    obtain ⟨part, _, p, subs, hplan, hsubs, _⟩ := forall₂_mem_left hparts hn
    refine ⟨p, hplan, fun d hd => ?_⟩
    obtain ⟨sub, _, hsub⟩ := forall₂_mem_left hsubs hd
    exact ih hsub

theorem nodeTrace_ne_error {fuel : Nat} {c : Call} {n : Node} {p : Plan}
    (hplan : plan load c.blocks c.ctx n () = .ok p ())
    (hcalls : ∀ d ∈ p.calls, ∀ e, trace load fuel d () ≠ .error e ()) (e : Error) :
    nodeTrace load fuel c n () ≠ .error e () := by
  rw [nodeTrace, bind_of_ok hplan, Plan.run_apply]
  cases hr : mapEach p.calls (trace load fuel) () with
  | error e' u => exact absurd hr (mapEach_ne_error hcalls e')
  | _ => nofun

/-- A call that returns does not throw, however much fuel there is. -/
theorem Passes.ne_error {c : Call} (h : Passes load c) (fuel : Nat) (e : Error) :
    trace load fuel c () ≠ .error e () := by
  induction h generalizing fuel e with
  | @intro c plans hplan _ ih =>
    cases fuel with
    | zero => nofun
    | succ fuel =>
      have hnodes : ∀ n ∈ c.nodes, ∀ e, nodeTrace load fuel c n () ≠ .error e () :=
        fun n hn => nodeTrace_ne_error (hplan n hn) fun d hd e => ih n hn d hd fuel e
      rw [trace_succ, bind_apply]
      cases hr : mapEach c.nodes (nodeTrace load fuel c) () with
      | error e' u => exact absurd hr (mapEach_ne_error hnodes e')
      | _ => nofun

/-- A call ends only if the calls it comes to do. -/
theorem Renders.ne_timeout {fuel : Nat} {c d : Call} {n : Node} (h : Renders load c n d)
    (hc : trace load (fuel + 1) c () ≠ .timeout) : trace load fuel d () ≠ .timeout := by
  obtain ⟨before, after, p, ds, ds', hnodes, hbefore, hplan, hcalls, hds⟩ := h
  intro hd
  refine hc ?_
  have hn : nodeTrace load fuel c n () = .timeout := by
    rw [nodeTrace, bind_of_ok hplan, Plan.run_apply, hcalls,
      mapEach_timeout (fun e he e' => (hds e he).ne_error fuel e') hd]
  have herror : ∀ m ∈ before, ∀ e, nodeTrace load fuel c m () ≠ .error e () := by
    intro m hm
    obtain ⟨p', hplan', hpass⟩ := hbefore m hm
    exact nodeTrace_ne_error hplan' fun d hd e => (hpass d hd).ne_error fuel e
  rw [trace_succ, bind_apply, hnodes, mapEach_timeout herror hn]

/-- A call ends if the calls it comes to do. -/
theorem exists_trace_ne_timeout {c : Call}
    (h : ∀ n d, Renders load c n d → ∃ fuel, trace load fuel d () ≠ .timeout) :
    ∃ fuel, trace load fuel c () ≠ .timeout := by
  have hnodes : ∃ fuel, mapEach c.nodes (nodeTrace load fuel c) () ≠ .timeout := by
    refine exists_mapEach_ne_timeout (fun k k' n hk => nodeTrace_approx hk c n ()) ?_
    intro before n after hsplit hbefore
    have hpass : ∀ m ∈ before, NodePasses load c m := by
      intro m hm
      obtain ⟨k, part, hpart⟩ := hbefore m hm
      obtain ⟨p, _, hplan, hrun⟩ := bind_eq_ok.mp hpart
      obtain ⟨subs, hsubs, _⟩ := Plan.run_eq_ok hrun
      refine ⟨p, hplan, fun d hd => ?_⟩
      obtain ⟨sub, _, hsub⟩ := forall₂_mem_left hsubs hd
      exact passes_of_trace hsub
    cases hplan : plan load c.blocks c.ctx n () with
    | timeout => exact absurd hplan (plan_ended _ _ n)
    | error e u =>
      refine ⟨0, ?_⟩
      rw [nodeTrace, bind_apply, hplan]
      nofun
    | ok p u =>
      have hcalls : ∃ fuel, mapEach p.calls (trace load fuel) () ≠ .timeout := by
        refine exists_mapEach_ne_timeout (fun k k' d hk => trace_approx hk d ()) ?_
        intro ds d ds' hds hpassed
        refine h n d ⟨before, after, p, ds, ds', hsplit, hpass, hplan, hds, fun e he => ?_⟩
        obtain ⟨k, es, hes⟩ := hpassed e he
        exact passes_of_trace hes
      obtain ⟨fuel, hfuel⟩ := hcalls
      refine ⟨fuel, ?_⟩
      rw [nodeTrace, bind_of_ok hplan, Plan.run_apply]
      cases hr : mapEach p.calls (trace load fuel) () with
      | timeout => exact absurd hr hfuel
      | _ => nofun
  obtain ⟨fuel, hfuel⟩ := hnodes
  refine ⟨fuel + 1, ?_⟩
  rw [trace_succ, bind_apply]
  cases hr : mapEach c.nodes (nodeTrace load fuel c) () with
  | timeout => exact absurd hr hfuel
  | _ => nofun

/-- A call ends if and only if it is not the first of infinitely many that are made one for
the other. -/
theorem exists_trace_ne_timeout_iff {c : Call} :
    (∃ fuel, trace load fuel c () ≠ .timeout) ↔ Acc (fun d c => ∃ n, Renders load c n d) c := by
  constructor
  · rintro ⟨fuel, h⟩
    induction fuel generalizing c with
    | zero => exact absurd rfl h
    | succ fuel ih => exact .intro c fun d ⟨n, hd⟩ => ih (hd.ne_timeout h)
  · intro h
    induction h with
    | intro c _ ih => exact exists_trace_ne_timeout fun n d hd => ih d ⟨n, hd⟩

theorem Renders.callOf {c d : Call} {n : Node} (h : Renders load c n d) :
    n ∈ c.nodes ∧ CallOf load c.blocks n d := by
  obtain ⟨before, after, p, ds, ds', hnodes, _, hplan, hcalls, _⟩ := h
  refine ⟨?_, callOf_plan hplan ?_⟩
  · rw [hnodes]
    exact List.mem_append_right _ List.mem_cons_self
  · rw [hcalls]
    exact List.mem_append_right _ List.mem_cons_self

/-! ## Plain calls and replacements -/

variable (load)

def PlainCall (d c : Call) : Prop := ∃ n, Renders load c n d ∧ ¬Replaced c.blocks n

def Replacement (d c : Call) : Prop := ∃ n, Renders load c n d ∧ Replaced c.blocks n

/-- The file `p` names the file `q`. -/
def Names (q p : Bytes) : Prop :=
  ∃ ns m, loadNodes load p () = .ok ns () ∧ m ∈ allNodes ns ∧ q ∈ m.paths

/-- Plain calls from these nodes come to an end. -/
def Plain (ns : List Node) : Prop := ∀ blocks ctx, Acc (PlainCall load) ⟨blocks, ns, ctx⟩

def PlainFile (p : Bytes) : Prop := ∀ ns, loadNodes load p () = .ok ns () → Plain load ns

variable {load}

theorem plain_of_files {ns : List Node}
    (h : ∀ m ∈ allNodes ns, ∀ q ∈ m.paths, ∀ q', ReflTransGen (Names load) q' q → PlainFile load q') :
    Plain load ns := by
  induction hsize : sizeOf ns using Nat.strong_induction_on generalizing ns with
  | _ size ih =>
    refine fun blocks ctx => .intro _ fun d ⟨n, hn, hnot⟩ => ?_
    obtain ⟨hmem, hcall⟩ := hn.callOf
    cases hcall with
    | @inner _ ms hlist _ ctx' =>
      have hlt : sizeOf ms < size := by
        rw [← hsize]
        exact (sizeOf_lists hlist).trans (List.sizeOf_lt_of_mem hmem)
      exact ih _ hlt (fun m hm => h m (nodesIn_subset hmem (allNodes_subset_of_lists hlist hm))) rfl _ _
    | replaced children hlookup ctx' =>
      exact absurd ⟨_, _, rfl, Option.isSome_iff_exists.mpr ⟨_, hlookup⟩⟩ hnot
    | @included path ms ctx' _ data hload hentry =>
      have hpath := h _ (subset_allNodes _ hmem) path List.mem_cons_self
      -- the file itself is rendered, or the file that it extends
      unfold entry at hentry
      cases hparent : parentOf ms with
      | none =>
        rw [hparent] at hentry
        cases hentry
        exact hpath path .refl _ hload _ _
      | some parent =>
        rw [hparent] at hentry
        obtain ⟨qs, _, hparentload, hentry⟩ := bind_eq_ok.mp hentry
        cases hentry
        have hnames : Names load parent path :=
          ⟨ms, _, hload, subset_allNodes _ (parentOf_mem hparent), List.mem_cons_self⟩
        exact hpath parent (.single hnames) _ hparentload _ _

/-- Plain calls come to an end if the files that name files do. -/
theorem acc_plain (hfiles : WellFounded (Names load)) (c : Call) : Acc (PlainCall load) c := by
  have hfile : ∀ p, PlainFile load p := by
    intro p
    induction p using hfiles.transGen.induction with
    | _ p ih =>
      intro ns hload
      refine plain_of_files fun m hm q hq q' hq' => ih q' ?_
      exact .tail' hq' ⟨ns, m, hload, hm, hq⟩
  exact plain_of_files (fun m hm q hq q' hq' => hfile q') c.blocks c.ctx

end Plans

/-! ## A block inside a block of its name -/

theorem names_noFiles : WellFounded (Names noFiles) :=
  ⟨fun _ => .intro _ fun _ ⟨_, _, hload, _⟩ => by cases hload⟩

/-- `a` inside `a`. -/
def nested : List Node := [.block (ascii "a") [.block (ascii "a") [.text (ascii "x")]]]

theorem parse_nested : parse []
    (ascii "\x7b#block \"a\"\x7d\x7b#block \"a\"\x7dx\x7b/block\x7d\x7b/block\x7d") =
      .ok (nested, []) [] := by
  -- what is behind the first directive, the second one, the text and the first closing
  let s₁ := 0x7B :: ascii "#block \"a\"\x7dx\x7b/block\x7d\x7b/block\x7d"
  let s₂ := ascii "x" ++ 0x7B :: ascii "/block\x7d\x7b/block\x7d"
  let s₃ := 0x7B :: ascii "/block\x7d"
  have hopen : tryBlock [] (0x7B :: ascii "#block \"a\"\x7d" ++ s₁) =
      .ok (some (ascii "#block", ascii "\"a\"")) s₁ := by decide +kernel
  have hopen₁ : tryBlock [] s₁ = .ok (some (ascii "#block", ascii "\"a\"")) s₂ := by decide +kernel
  have hclose₂ : tryBlock [] (0x7B :: ascii "/block\x7d\x7b/block\x7d") =
      .ok (some (ascii "/block", [])) s₃ := by decide +kernel
  have hclose₃ : tryBlock [] s₃ = .ok (some (ascii "/block", [])) [] := by decide +kernel
  have hunquote : unquote (ascii "\"a\"") = ascii "a" := by decide +kernel
  have hinner : parseLoop [] 40 [ascii "/block"] [] [] s₂ =
      .ok ([.text (ascii "x")], ascii "/block") s₃ :=
    (parseLoop_text [] 39 _ _ _ (t := ascii "x") (by decide) _).trans
      (parseLoop_stop [] 38 _ _ hclose₂ List.mem_cons_self)
  have houter : parseLoop [] 41 [ascii "/block"] [] [] s₁ =
      .ok ([.block (ascii "a") [.text (ascii "x")]], ascii "/block") [] := by
    rw [parseLoop_node [] 40 _ _ hopen₁ (by decide) (directive_block [] hinner), hunquote]
    exact parseLoop_stop [] 39 [] _ hclose₃ List.mem_cons_self
  have hsrc : ascii "\x7b#block \"a\"\x7d\x7b#block \"a\"\x7dx\x7b/block\x7d\x7b/block\x7d" =
      0x7B :: ascii "#block \"a\"\x7d" ++ s₁ := by decide
  rw [parse, hsrc]
  refine (parseLoop_node [] 41 [] [] hopen List.not_mem_nil (directive_block [] houter)).trans ?_
  rw [hunquote]
  exact parseLoop_nil [] 40 [] [] nested

theorem render_nested [DoubleOps] (load : Bytes → Except Error Bytes) (fuel : Nat)
    (children : List Node) (ctx : Ctx) :
    render load fuel (some (collectBlocks [] nested)) [.block (ascii "a") children] ctx () =
      .timeout := by
  have hlookup : AssocList.lookup (ascii "a") (collectBlocks [] nested) =
      some [.block (ascii "a") [.text (ascii "x")]] := by
    rw [lookup_collectBlocks]
    rfl
  induction fuel generalizing children with
  | zero => rfl
  | succ fuel ih =>
    rw [render, bind_apply, mapEach_singleton, renderNode, Option.bind_some, hlookup]
    dsimp only
    rw [ih]

end Template

end Look
