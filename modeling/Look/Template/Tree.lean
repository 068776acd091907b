/-
The nodes inside a node, and the nodes that a rendering can come to.

`allNodes` lists the nodes of a template at every depth in the order of the text.  What
`collect_blocks` finds for a name is the first block of that name in it
(`lookup_collectBlocks`).  A rendering never leaves a set of nodes that contains the template
and is closed under what its files contain (`Call.Within.callOf`).
-/
import Look.Template.Plan

namespace Look

namespace Template

open Exec

/-! ## All nodes -/

mutual

/-- A node and the nodes inside it. -/
def nodesIn : Node → List Node
  | .cond condition children alt =>
    .cond condition children alt :: (allNodes children ++ allNodes alt)
  | .each list item children alt => .each list item children alt :: (allNodes children ++ allNodes alt)
  | .block name children => .block name children :: allNodes children
  | n => [n]

def allNodes : List Node → List Node
  | [] => []
  | n :: ns => nodesIn n ++ allNodes ns

end

theorem self_mem_nodesIn (n : Node) : n ∈ nodesIn n := by
  cases n <;> simp [nodesIn]

theorem nodesIn_subset {ns : List Node} {n : Node} (h : n ∈ ns) : nodesIn n ⊆ allNodes ns := by
  induction ns with
  | nil => cases h
  | cons m ns ih =>
    rw [allNodes]
    cases h with
    | head => exact List.subset_append_left ..
    | tail _ h => exact List.Subset.trans (ih h) (List.subset_append_right ..)

theorem subset_allNodes (ns : List Node) : ns ⊆ allNodes ns :=
  fun n h => nodesIn_subset h (self_mem_nodesIn n)

theorem leaf_trans {n m : Node} (hn : nodesIn n = [n]) (h : m ∈ nodesIn n) :
    nodesIn m ⊆ nodesIn n := by
  rw [hn, List.mem_singleton] at h
  rw [h]
  exact List.Subset.refl _

mutual

theorem nodesIn_trans : ∀ (n : Node) {m : Node}, m ∈ nodesIn n → nodesIn m ⊆ nodesIn n
  | .cond condition children alt, m, h => by
    rw [nodesIn, List.mem_cons, List.mem_append] at h
    obtain rfl | h | h := h
    · exact List.Subset.refl _
    · rw [nodesIn]
      exact List.Subset.trans (allNodes_trans children h)
        (List.Subset.trans (List.subset_append_left ..) (List.subset_cons_self ..))
    · rw [nodesIn]
      exact List.Subset.trans (allNodes_trans alt h)
        (List.Subset.trans (List.subset_append_right ..) (List.subset_cons_self ..))
  | .each list item children alt, m, h => by
    rw [nodesIn, List.mem_cons, List.mem_append] at h
    obtain rfl | h | h := h
    · exact List.Subset.refl _
    · rw [nodesIn]
      exact List.Subset.trans (allNodes_trans children h)
        (List.Subset.trans (List.subset_append_left ..) (List.subset_cons_self ..))
    · rw [nodesIn]
      exact List.Subset.trans (allNodes_trans alt h)
        (List.Subset.trans (List.subset_append_right ..) (List.subset_cons_self ..))
  | .block name children, m, h => by
    rw [nodesIn, List.mem_cons] at h
    obtain rfl | h := h
    · exact List.Subset.refl _
    · rw [nodesIn]
      exact List.Subset.trans (allNodes_trans children h) (List.subset_cons_self ..)
  | .text _, _, h => leaf_trans rfl h
  | .var _, _, h => leaf_trans rfl h
  | .rawVar _, _, h => leaf_trans rfl h
  | .extends _, _, h => leaf_trans rfl h
  | .include _ _, _, h => leaf_trans rfl h

/-- What is inside a node of a template is in the template. -/
theorem allNodes_trans : ∀ (ns : List Node) {m : Node}, m ∈ allNodes ns → nodesIn m ⊆ allNodes ns
  | [], _, h => by cases h
  | n :: ns, m, h => by
    rw [allNodes, List.mem_append] at h
    rw [allNodes]
    obtain h | h := h
    · exact List.Subset.trans (nodesIn_trans n h) (List.subset_append_left ..)
    · exact List.Subset.trans (allNodes_trans ns h) (List.subset_append_right ..)

end

/-! ## Blocks -/

/-- The content of a node, if it is the block of a name. -/
def blockOf (name : Bytes) : Node → Option (List Node)
  | .block name' children => if name' = name then some children else none
  | _ => none

/-- The first definition of a block. -/
def definition (name : Bytes) (ns : List Node) : Option (List Node) :=
  (allNodes ns).findSome? (blockOf name)

mutual

theorem lookup_collectNode (name : Bytes) : ∀ (n : Node) (blocks : Blocks),
    AssocList.lookup name (collectNode blocks n) =
      (AssocList.lookup name blocks).or ((nodesIn n).findSome? (blockOf name))
  | .cond condition children alt, blocks => by
    rw [collectNode, lookup_collectBlocks name alt, lookup_collectBlocks name children,
      Option.or_assoc, definition, definition, ← List.findSome?_append]
    rfl
  | .each list item children alt, blocks => by
    rw [collectNode, lookup_collectBlocks name alt, lookup_collectBlocks name children,
      Option.or_assoc, definition, definition, ← List.findSome?_append]
    rfl
  | .block name' children, blocks => by
    rw [collectNode, lookup_collectBlocks name children, nodesIn, List.findSome?_cons, blockOf]
    by_cases hname : name' = name
    · subst hname
      rw [if_pos rfl]
      cases hlookup : AssocList.lookup name' blocks with
      | some content => simp [hlookup]
      | none => simp [AssocList.lookup_upsert_self]
    · rw [if_neg hname]
      congr 1
      split
      · rfl
      · exact AssocList.lookup_upsert_of_ne _ _ (Ne.symm hname)
  | .text _, blocks => by simp [collectNode, nodesIn, blockOf]
  | .var _, blocks => by simp [collectNode, nodesIn, blockOf]
  | .rawVar _, blocks => by simp [collectNode, nodesIn, blockOf]
  | .extends _, blocks => by simp [collectNode, nodesIn, blockOf]
  | .include _ _, blocks => by simp [collectNode, nodesIn, blockOf]

/-- The table that is there, then the first definition. -/
theorem lookup_collectBlocks (name : Bytes) : ∀ (ns : List Node) (blocks : Blocks),
    AssocList.lookup name (collectBlocks blocks ns) =
      (AssocList.lookup name blocks).or (definition name ns)
  | [], blocks => by simp [collectBlocks, definition, allNodes]
  | n :: ns, blocks => by
    rw [collectBlocks, lookup_collectBlocks name ns, lookup_collectNode name n, definition, definition,
      allNodes, List.findSome?_append, Option.or_assoc]

end

theorem definition_subset {name : Bytes} {ns content : List Node}
    (h : definition name ns = some content) : allNodes content ⊆ allNodes ns := by
  obtain ⟨n, hn, hblock⟩ := List.exists_of_findSome?_eq_some h
  cases n with
  | block name' children =>
    rw [blockOf] at hblock
    split at hblock
    · cases hblock
      have hin := allNodes_trans ns hn
      rw [nodesIn] at hin
      exact List.Subset.trans (List.subset_cons_self ..) hin
    · cases hblock
  | _ => cases hblock

/-! ## What a rendering can come to -/

/-- The files that a node names. -/
def Node.paths : Node → List Bytes
  | .extends path => [path]
  | .include path _ => [path]
  | _ => []

variable (load : Bytes → Except Error Bytes)

/-- The nodes of a template and of the files it pulls in. -/
inductive Belongs (nodes : List Node) : Node → Prop where
  | own {n : Node} (h : n ∈ allNodes nodes) : Belongs nodes n
  | file {m n : Node} {path : Bytes} {ns : List Node} (hm : Belongs nodes m) (hpath : path ∈ m.paths)
    (hload : loadNodes load path () = .ok ns ()) (h : n ∈ allNodes ns) : Belongs nodes n

/-- There is no file. -/
def noFiles (path : Bytes) : Except Error Bytes :=
  .error (ascii "Template file not found: " ++ path)

/-- Every file that a node of `P` names has nodes of `P` only. -/
def Closed (P : Node → Prop) : Prop :=
  ∀ m path ns, P m → path ∈ m.paths → loadNodes load path () = .ok ns () → ∀ n ∈ allNodes ns, P n

theorem closed_belongs (nodes : List Node) : Closed load (Belongs load nodes) :=
  fun _ _ _ hm hpath hload _ hn => .file hm hpath hload hn

/-- All nodes that a call can come to without a file. -/
structure Call.Within (P : Node → Prop) (c : Call) : Prop where
  nodes : ∀ n ∈ allNodes c.nodes, P n
  blocks : ∀ name content, c.blocks.bind (AssocList.lookup name) = some content →
    ∀ n ∈ allNodes content, P n

variable {load} {P : Node → Prop}

theorem parentOf_mem {nodes : List Node} {path : Bytes} (h : parentOf nodes = some path) :
    .extends path ∈ nodes := by
  fun_induction parentOf nodes with
  | case1 t ns ih => exact List.mem_cons_of_mem _ (ih h)
  | case2 path' ns =>
    cases h
    exact List.mem_cons_self
  | case3 => cases h

theorem entry_within (hP : Closed load P) {nodes : List Node} {ctx : Ctx} {c : Call}
    (hnodes : ∀ n ∈ allNodes nodes, P n) (h : entry load nodes ctx () = .ok c ()) : c.Within P := by
  unfold entry at h
  cases hparent : parentOf nodes with
  | none =>
    rw [hparent] at h
    cases h
    exact ⟨hnodes, fun _ _ h => by cases h⟩
  | some path =>
    rw [hparent] at h
    obtain ⟨parent, _, hload, h⟩ := bind_eq_ok.mp h
    cases h
    have hin := hnodes _ (subset_allNodes _ (parentOf_mem hparent))
    refine ⟨hP _ path _ hin List.mem_cons_self hload, fun name content hlookup n hn => ?_⟩
    rw [Option.bind_some, lookup_collectBlocks, AssocList.lookup, Option.none_or] at hlookup
    exact hnodes n (definition_subset hlookup hn)

theorem tryCatch_throw_eq_ok {α : Type} {m : Outcome α} {w : Error → Error} {a : α} {u : Unit} :
    tryCatch m (fun e => throw (w e)) u = .ok a () ↔ m u = .ok a () := by
  rw [tryCatch_apply]
  cases m u <;> simp

/-! ## What a call can be -/

/-- The lists of nodes inside a node. -/
def Node.lists : Node → List (List Node)
  | .cond _ children alt => [children, alt]
  | .each _ _ children alt => [children, alt]
  | .block _ children => [children]
  | _ => []

theorem allNodes_subset_of_lists {n : Node} {ns : List Node} (h : ns ∈ n.lists) :
    allNodes ns ⊆ nodesIn n := by
  intro m hm
  cases n with
  | cond condition children alt =>
    rw [nodesIn, List.mem_cons, List.mem_append]
    obtain rfl | h := List.mem_cons.mp h
    · exact .inr (.inl hm)
    · rw [List.mem_singleton] at h
      exact .inr (.inr (h ▸ hm))
  | each list item children alt =>
    rw [nodesIn, List.mem_cons, List.mem_append]
    obtain rfl | h := List.mem_cons.mp h
    · exact .inr (.inl hm)
    · rw [List.mem_singleton] at h
      exact .inr (.inr (h ▸ hm))
  | block name children =>
    rw [Node.lists, List.mem_singleton] at h
    rw [nodesIn]
    exact List.mem_cons_of_mem _ (h ▸ hm)
  | _ => cases h

theorem sizeOf_lists {n : Node} {ns : List Node} (h : ns ∈ n.lists) : sizeOf ns < sizeOf n := by
  cases n with
  | cond condition children alt =>
    rw [Node.cond.sizeOf_spec]
    obtain rfl | h := List.mem_cons.mp h
    · omega
    · rw [List.mem_singleton] at h
      subst h
      omega
  | each list item children alt =>
    rw [Node.each.sizeOf_spec]
    obtain rfl | h := List.mem_cons.mp h
    · omega
    · rw [List.mem_singleton] at h
      subst h
      omega
  | block name children =>
    rw [Node.lists, List.mem_singleton] at h
    subst h
    rw [Node.block.sizeOf_spec]
    omega
  | _ => cases h

/-- A node has an entry in the table. -/
def Replaced (blocks : Option Blocks) (n : Node) : Prop :=
  ∃ name children, n = .block name children ∧ (blocks.bind (AssocList.lookup name)).isSome

/-- A node renders a list inside it, what the table has for it, or a file. -/
inductive CallOf (load : Bytes → Except Error Bytes) (blocks : Option Blocks) : Node → Call → Prop where
  | inner {n : Node} {ns : List Node} (h : ns ∈ n.lists) (hn : ¬Replaced blocks n) (ctx : Ctx) :
    CallOf load blocks n ⟨blocks, ns, ctx⟩
  | replaced {name : Bytes} {content : List Node} (children : List Node)
    (h : blocks.bind (AssocList.lookup name) = some content) (ctx : Ctx) :
    CallOf load blocks (.block name children) ⟨blocks, content, ctx⟩
  | included {path : Bytes} {ns : List Node} {ctx : Ctx} {d : Call} (data : Bytes)
    (hload : loadNodes load path () = .ok ns ()) (h : entry load ns ctx () = .ok d ()) :
    CallOf load blocks (.include path data) d

theorem not_replaced {blocks : Option Blocks} {n : Node}
    (h : ∀ name children, n ≠ .block name children) :
    ¬Replaced blocks n := fun ⟨name, children, hn, _⟩ => h name children hn

theorem callOf_plan [DoubleOps] {blocks : Option Blocks} {ctx : Ctx} {n : Node} {p : Plan}
    (h : plan load blocks ctx n () = .ok p ()) {d : Call} (hd : d ∈ p.calls) :
    CallOf load blocks n d := by
  cases n with
  | text t =>
    cases h
    cases hd
  | var path =>
    obtain ⟨v, _, _, h⟩ := bind_eq_ok.mp h
    cases h
    cases hd
  | rawVar path =>
    obtain ⟨v, _, _, h⟩ := bind_eq_ok.mp h
    cases h
    cases hd
  | «extends» path =>
    cases h
    cases hd
  | cond condition children alt =>
    obtain ⟨b, _, _, h⟩ := bind_eq_ok.mp h
    cases h
    rw [List.mem_singleton] at hd
    subst hd
    refine .inner ?_ (not_replaced fun _ _ => Node.noConfusion) ctx
    cases b with
    | true => exact List.mem_cons_self
    | false => exact List.mem_cons_of_mem _ List.mem_cons_self
  | each list item children alt =>
    obtain ⟨v, _, _, h⟩ := bind_eq_ok.mp h
    cases h
    dsimp only at hd
    rw [eachCalls] at hd
    split at hd
    · rw [List.mem_singleton] at hd
      subst hd
      exact .inner (List.mem_cons_of_mem _ List.mem_cons_self)
        (not_replaced fun _ _ => Node.noConfusion) ctx
    · obtain ⟨elem, _, rfl⟩ := List.mem_map.mp hd
      exact .inner List.mem_cons_self (not_replaced fun _ _ => Node.noConfusion) _
  | block name children =>
    cases h
    rw [List.mem_singleton] at hd
    subst hd
    cases hlookup : blocks.bind (AssocList.lookup name) with
    | some content => exact .replaced children hlookup ctx
    | none =>
      refine .inner List.mem_cons_self ?_ ctx
      rintro ⟨_, _, hn, hsome⟩
      cases hn
      rw [hlookup] at hsome
      cases hsome
  | «include» path data =>
    obtain ⟨incCtx, _, _, h⟩ := bind_eq_ok.mp h
    obtain ⟨call, _, hcall, h⟩ := bind_eq_ok.mp h
    cases h
    rw [List.mem_singleton] at hd
    subst hd
    obtain ⟨ns, _, hload, hentry⟩ := bind_eq_ok.mp (tryCatch_throw_eq_ok.mp hcall)
    exact .included data hload hentry

/-- The calls of a plan stay where the call is. -/
theorem Call.Within.callOf (hP : Closed load P) {c : Call} (hc : c.Within P) {n : Node}
    (hn : n ∈ c.nodes) {d : Call} (h : CallOf load c.blocks n d) : d.Within P := by
  have hsub : ∀ m ∈ nodesIn n, P m := fun m hm => hc.nodes m (nodesIn_subset hn hm)
  cases h with
  | inner h _ ctx => exact ⟨fun m hm => hsub m (allNodes_subset_of_lists h hm), hc.blocks⟩
  | replaced children h ctx => exact ⟨hc.blocks _ _ h, hc.blocks⟩
  | included data hload h =>
    exact entry_within hP (hP _ _ _ (hsub _ (self_mem_nodesIn _)) List.mem_cons_self hload) h

end Template

end Look
