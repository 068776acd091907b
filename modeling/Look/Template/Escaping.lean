/-
What reaches the page from a value.

The trace of a rendering says where each byte of the output is from.  A value reaches it
through `htmlEscape` only, unless the template asks for it raw, so that a byte that opens a
tag or ends an attribute is a byte of a text node.  Two renderings that decide alike have the
same pieces: the values in the holes are all that differs (`trace_similar`).
-/
import Look.Template.Literal
import Look.Template.Tree

namespace Look

namespace Template

open Exec

/-! ## Escaped bytes -/

/-- The bytes that open or end a tag or an attribute. -/
def specials : Bytes := [0x3C, 0x3E, 0x22, 0x27]

def entities : List Bytes :=
  [ascii "&amp;", ascii "&lt;", ascii "&gt;", ascii "&quot;", ascii "&#39;", ascii "&#96;"]

theorem escapeByte_cases (c : UInt8) :
    escapeByte c ∈ entities ∨ escapeByte c = [c] ∧ c ∉ specials ∧ c ≠ 0x26 := by
  unfold escapeByte
  split_ifs with h1 h2 h3 h4 h5 h6
  · exact .inl (by simp [entities])
  · exact .inl (by simp [entities])
  · exact .inl (by simp [entities])
  · exact .inl (by simp [entities])
  · exact .inl (by simp [entities])
  · exact .inl (by simp [entities])
  · exact .inr ⟨rfl, by simp [specials, h2, h3, h4, h5], h1⟩

theorem entity_bytes {e : Bytes} (h : e ∈ entities) :
    (∀ c ∈ e, c ∉ specials) ∧ ∃ rest, e = 0x26 :: rest ∧ 0x26 ∉ rest := by
  simp only [entities, List.mem_cons, List.not_mem_nil, or_false] at h
  obtain rfl | rfl | rfl | rfl | rfl | rfl := h <;>
    exact ⟨by decide +kernel, _, rfl, by decide⟩

theorem htmlEscape_specials {s : Bytes} {c : UInt8} (h : c ∈ htmlEscape s) : c ∉ specials := by
  obtain ⟨a, _, hc⟩ := List.mem_flatMap.mp h
  obtain hentity | ⟨heq, hnot, _⟩ := escapeByte_cases a
  · exact (entity_bytes hentity).1 c hc
  · rw [heq, List.mem_singleton] at hc
    rwa [hc]

/-- An ampersand begins an entity. -/
theorem htmlEscape_ampersand {s x y : Bytes} (h : htmlEscape s = x ++ 0x26 :: y) :
    ∃ e ∈ entities, e <+: 0x26 :: y := by
  obtain ⟨_, a, rest, u, w, _, ha, _, rfl⟩ := flatMap_eq_append_cons h
  obtain hentity | ⟨heq, _, hamp⟩ := escapeByte_cases a
  · obtain ⟨_, e, he, hnot⟩ := entity_bytes hentity
    cases u with
    | nil =>
      rw [ha] at hentity
      exact ⟨_, hentity, rest.flatMap escapeByte, rfl⟩
    | cons b u =>
      rw [ha, List.cons_append, List.cons.injEq] at he
      exact absurd (he.2 ▸ List.mem_append_right _ List.mem_cons_self) hnot
  · have hmem : (0x26 : UInt8) ∈ escapeByte a := ha ▸ List.mem_append_right _ List.mem_cons_self
    rw [heq, List.mem_singleton] at hmem
    exact absurd hmem.symm hamp

/-! ## Where the bytes of the output are from -/

section Origin

variable [DoubleOps]

/-- The byte between `x` and `y` in the output is a byte of a text event. -/
def InText (es : List Event) (x : Bytes) (c : UInt8) (y : Bytes) : Prop :=
  ∃ es₁ t es₂ u w, es = es₁ ++ .text t :: es₂ ∧ t = u ++ c :: w ∧
    x = es₁.flatMap Event.bytes ++ u ∧ y = w ++ es₂.flatMap Event.bytes

variable {es : List Event} (hraw : ∀ path v, .rawVar path v ∉ es) {x y : Bytes} {c : UInt8}
include hraw

/-- A byte of the output is a byte of a text or of an escaped value. -/
theorem inText_or_escaped (h : es.flatMap Event.bytes = x ++ c :: y) :
    InText es x c y ∨ ∃ v u w z, htmlEscape (toStr v) = u ++ c :: w ∧ y = w ++ z := by
  obtain ⟨es₁, e, es₂, u, w, hes, he, hx, hy⟩ := flatMap_eq_append_cons h
  cases e with
  | text t => exact .inl ⟨es₁, t, es₂, u, w, hes, he, hx, hy⟩
  | var path v => exact .inr ⟨v, u, w, _, he, hy⟩
  | rawVar path v => exact absurd (hes ▸ List.mem_append_right _ List.mem_cons_self) (hraw path v)
  | branch b => cases u <;> cases he
  | rounds n => cases u <;> cases he

theorem specials_inText (h : es.flatMap Event.bytes = x ++ c :: y) (hc : c ∈ specials) :
    InText es x c y := by
  obtain htext | ⟨v, u, w, z, hv, _⟩ := inText_or_escaped hraw h
  · exact htext
  · exact absurd hc (htmlEscape_specials (hv ▸ List.mem_append_right _ List.mem_cons_self))

theorem ampersand_inText_or_entity (h : es.flatMap Event.bytes = x ++ 0x26 :: y) :
    InText es x 0x26 y ∨ ∃ e ∈ entities, e <+: 0x26 :: y := by
  obtain htext | ⟨v, u, w, z, hv, rfl⟩ := inText_or_escaped hraw h
  · exact .inl htext
  · obtain ⟨e, he, hprefix⟩ := htmlEscape_ampersand hv
    exact .inr ⟨e, he, hprefix.trans ⟨z, rfl⟩⟩

end Origin

/-! ## Two renderings beside each other -/

inductive Piece where
  | text (t : Bytes)
  | hole (path : Bytes)

/-- What an event is without the value. -/
def Event.piece : Event → Option Piece
  | .text t => some (.text t)
  | .var path _ => some (.hole path)
  | .rawVar path _ => some (.hole path)
  | _ => none

/-- A branch that `{#if}` takes, or how often `{#each}` turns. -/
def Event.decision : Event → Option (Bool ⊕ Nat)
  | .branch b => some (.inl b)
  | .rounds n => some (.inr n)
  | _ => none

def pieces (es : List Event) : List Piece := es.filterMap Event.piece

def decisions (es : List Event) : List (Bool ⊕ Nat) := es.filterMap Event.decision

/-- Calls that differ in the context only. -/
def Similar (c c' : Call) : Prop := c.blocks = c'.blocks ∧ c.nodes = c'.nodes

/-- Decisions that agree as far as the first list goes, with what is left of them. -/
def Lockstep (es es' : List Event) : Prop :=
  ∀ r r', decisions es ++ r = decisions es' ++ r' → r = r' ∧ pieces es = pieces es'

theorem Lockstep.nil : Lockstep [] [] := fun _ _ h => ⟨h, rfl⟩

theorem Lockstep.append {es₁ es₁' es₂ es₂' : List Event} (h₁ : Lockstep es₁ es₁')
    (h₂ : Lockstep es₂ es₂') : Lockstep (es₁ ++ es₂) (es₁' ++ es₂') := by
  intro r r' h
  simp only [decisions, List.filterMap_append, List.append_assoc] at h
  obtain ⟨hrest, hpieces₁⟩ := h₁ _ _ h
  obtain ⟨hr, hpieces₂⟩ := h₂ _ _ hrest
  refine ⟨hr, ?_⟩
  simp only [pieces, List.filterMap_append] at *
  rw [hpieces₁, hpieces₂]

theorem Lockstep.flatten {α : Type} {R : α → α → Prop} {F F' : α → List Event → Prop}
    (hR : ∀ a a' es es', R a a' → F a es → F' a' es' → Lockstep es es') {l l' : List α}
    {parts parts' : List (List Event)} (hl : List.Forall₂ R l l') (h : List.Forall₂ F l parts)
    (h' : List.Forall₂ F' l' parts') : Lockstep parts.flatten parts'.flatten := by
  induction hl generalizing parts parts' with
  | nil =>
    cases h
    cases h'
    exact .nil
  | cons ha _ ih =>
    cases h with
    | cons hes h =>
      cases h' with
      | cons hes' h' =>
        rw [List.flatten_cons, List.flatten_cons]
        exact (hR _ _ _ _ ha hes hes').append (ih h h')

section Runs

variable {load : Bytes → Except Error Bytes}

theorem similar_entry {nodes : List Node} {ctx ctx' : Ctx} {c c' : Call}
    (h : entry load nodes ctx () = .ok c ()) (h' : entry load nodes ctx' () = .ok c' ()) :
    Similar c c' := by
  unfold entry at h h'
  cases hparent : parentOf nodes with
  | none =>
    rw [hparent] at h h'
    cases h
    cases h'
    exact ⟨rfl, rfl⟩
  | some path =>
    rw [hparent] at h h'
    obtain ⟨parent, _, hload, h⟩ := bind_eq_ok.mp h
    obtain ⟨parent', _, hload', h'⟩ := bind_eq_ok.mp h'
    cases hload.symm.trans hload'
    cases h
    cases h'
    exact ⟨rfl, rfl⟩

theorem similar_eachCalls {blocks : Option Blocks} {ctx ctx' : Ctx} {item : Bytes}
    {children alt : List Node} {elements elements' : List Value}
    (h : elements.length = elements'.length) :
    List.Forall₂ Similar (eachCalls blocks ctx item children alt elements)
      (eachCalls blocks ctx' item children alt elements') := by
  unfold eachCalls
  by_cases hnil : elements = []
  · rw [if_pos hnil, if_pos (List.length_eq_zero_iff.mp (by rw [← h, hnil]; rfl))]
    exact .cons ⟨rfl, rfl⟩ .nil
  · rw [if_neg hnil, if_neg fun hnil' => hnil (List.length_eq_zero_iff.mp (by rw [h, hnil']; rfl))]
    rw [List.forall₂_map_left_iff, List.forall₂_map_right_iff]
    exact List.forall₂_iff_get.mpr ⟨h, fun _ _ _ => ⟨rfl, rfl⟩⟩

variable [DoubleOps]

/-- A node that decides the same makes similar calls. -/
theorem plan_similar {blocks : Option Blocks} {ctx ctx' : Ctx} {n : Node} {p p' : Plan}
    (h : plan load blocks ctx n () = .ok p ()) (h' : plan load blocks ctx' n () = .ok p' ())
    {r r' : List (Bool ⊕ Nat)} (hd : decisions p.events ++ r = decisions p'.events ++ r') :
    r = r' ∧ pieces p.events = pieces p'.events ∧ List.Forall₂ Similar p.calls p'.calls := by
  cases n with
  | text t =>
    cases h
    cases h'
    exact ⟨hd, rfl, .nil⟩
  | var path =>
    obtain ⟨v, _, _, h⟩ := bind_eq_ok.mp h
    obtain ⟨v', _, _, h'⟩ := bind_eq_ok.mp h'
    cases h
    cases h'
    exact ⟨hd, rfl, .nil⟩
  | rawVar path =>
    obtain ⟨v, _, _, h⟩ := bind_eq_ok.mp h
    obtain ⟨v', _, _, h'⟩ := bind_eq_ok.mp h'
    cases h
    cases h'
    exact ⟨hd, rfl, .nil⟩
  | «extends» path =>
    cases h
    cases h'
    exact ⟨hd, rfl, .nil⟩
  | cond condition children alt =>
    obtain ⟨b, _, _, h⟩ := bind_eq_ok.mp h
    obtain ⟨b', _, _, h'⟩ := bind_eq_ok.mp h'
    cases h
    cases h'
    obtain ⟨hb, hr⟩ := List.cons.inj hd
    cases hb
    exact ⟨hr, rfl, .cons ⟨rfl, rfl⟩ .nil⟩
  | each list item children alt =>
    obtain ⟨v, _, _, h⟩ := bind_eq_ok.mp h
    obtain ⟨v', _, _, h'⟩ := bind_eq_ok.mp h'
    cases h
    cases h'
    obtain ⟨hn, hr⟩ := List.cons.inj hd
    refine ⟨hr, rfl, similar_eachCalls (Sum.inr.inj hn)⟩
  | block name children =>
    cases h
    cases h'
    exact ⟨hd, rfl, .cons ⟨rfl, rfl⟩ .nil⟩
  | «include» path data =>
    obtain ⟨incCtx, _, _, h⟩ := bind_eq_ok.mp h
    obtain ⟨call, _, hcall, h⟩ := bind_eq_ok.mp h
    obtain ⟨incCtx', _, _, h'⟩ := bind_eq_ok.mp h'
    obtain ⟨call', _, hcall', h'⟩ := bind_eq_ok.mp h'
    cases h
    cases h'
    obtain ⟨ns, _, hload, hentry⟩ := bind_eq_ok.mp (tryCatch_throw_eq_ok.mp hcall)
    obtain ⟨ns', _, hload', hentry'⟩ := bind_eq_ok.mp (tryCatch_throw_eq_ok.mp hcall')
    cases hload.symm.trans hload'
    exact ⟨hd, rfl, .cons (similar_entry hentry hentry') .nil⟩

/-- Renderings of one template that decide alike have the same texts and the same holes. -/
theorem trace_similar {fuel fuel' : Nat} {c c' : Call} {es es' : List Event} (hc : Similar c c')
    (h : trace load fuel c () = .ok es ()) (h' : trace load fuel' c' () = .ok es' ()) :
    Lockstep es es' := by
  induction fuel generalizing fuel' c c' es es' with
  | zero => cases h
  | succ fuel ih =>
    cases fuel' with
    | zero => cases h'
    | succ fuel' =>
      obtain ⟨parts, hparts, rfl⟩ := trace_eq_ok h
      obtain ⟨parts', hparts', rfl⟩ := trace_eq_ok h'
      rw [← hc.2] at hparts'
      refine Lockstep.flatten (R := Eq) ?_ (List.forall₂_eq_eq_eq ▸ rfl) hparts hparts'
      rintro n _ _ _ rfl ⟨p, subs, hplan, hsubs, rfl⟩ ⟨p', subs', hplan', hsubs', rfl⟩ r r' hd
      rw [← hc.1] at hplan'
      simp only [decisions, List.filterMap_append, List.append_assoc] at hd
      obtain ⟨hrest, hpieces, hcalls⟩ := plan_similar hplan hplan' hd
      have hcall : ∀ c c' sub sub', Similar c c' → trace load fuel c () = .ok sub () →
          trace load fuel' c' () = .ok sub' () → Lockstep sub sub' :=
        fun _ _ _ _ hcc hsub hsub' => ih hcc hsub hsub'
      obtain ⟨hr, hsubpieces⟩ := Lockstep.flatten hcall hcalls hsubs hsubs' _ _ hrest
      refine ⟨hr, ?_⟩
      simp only [pieces, List.filterMap_append] at *
      rw [hpieces, hsubpieces]

/-! ## Whole templates -/

/-- What an event writes stands in a node of `P`. -/
def Event.From (P : Node → Prop) : Event → Prop
  | .text t => P (.text t)
  | .var path _ => P (.var path)
  | .rawVar path _ => P (.rawVar path)
  | _ => True

theorem plan_from {P : Node → Prop} {blocks : Option Blocks} {ctx : Ctx} {n : Node} (hn : P n) {p : Plan}
    (h : plan load blocks ctx n () = .ok p ()) : ∀ e ∈ p.events, e.From P := by
  cases n with
  | text t =>
    cases h
    exact List.forall_mem_singleton.mpr hn
  | var path =>
    obtain ⟨v, _, _, h⟩ := bind_eq_ok.mp h
    cases h
    exact List.forall_mem_singleton.mpr hn
  | rawVar path =>
    obtain ⟨v, _, _, h⟩ := bind_eq_ok.mp h
    cases h
    exact List.forall_mem_singleton.mpr hn
  | cond condition children alt =>
    obtain ⟨b, _, _, h⟩ := bind_eq_ok.mp h
    cases h
    exact List.forall_mem_singleton.mpr trivial
  | each list item children alt =>
    obtain ⟨v, _, _, h⟩ := bind_eq_ok.mp h
    cases h
    exact List.forall_mem_singleton.mpr trivial
  | «extends» path =>
    cases h
    exact nofun
  | block name children =>
    cases h
    exact nofun
  | «include» path data =>
    obtain ⟨incCtx, _, _, h⟩ := bind_eq_ok.mp h
    obtain ⟨call, _, _, h⟩ := bind_eq_ok.mp h
    cases h
    exact nofun

theorem trace_from {P : Node → Prop} (hP : Closed load P) {fuel : Nat} {c : Call} (hc : c.Within P)
    {es : List Event} (h : trace load fuel c () = .ok es ()) : ∀ e ∈ es, e.From P := by
  induction fuel generalizing c es with
  | zero => cases h
  | succ fuel ih =>
    obtain ⟨parts, hparts, rfl⟩ := trace_eq_ok h
    intro e he
    obtain ⟨part, hpart, he⟩ := List.mem_flatten.mp he
    obtain ⟨n, hn, p, subs, hplan, hsubs, rfl⟩ := forall₂_mem_right hparts hpart
    obtain he | he := List.mem_append.mp he
    · exact plan_from (hc.nodes n (subset_allNodes _ hn)) hplan e he
    · obtain ⟨sub, hsub, he⟩ := List.mem_flatten.mp he
      obtain ⟨c', hc', htrace⟩ := forall₂_mem_right hsubs hsub
      exact ih (hc.callOf hP hn (callOf_plan hplan hc')) htrace e he

/-- The trace of `render_file` and `render_string` behind the loading. -/
def traceNodes (load : Bytes → Except Error Bytes) (fuel : Nat) (nodes : List Node) (ctx : Ctx) :
    Outcome (List Event) := do
  let c ← entry load nodes ctx
  trace load fuel c

theorem renderNodes_eq_trace {fuel : Nat} {nodes : List Node} {ctx : Ctx} {out : Bytes}
    (h : renderNodes load (render load fuel) nodes ctx () = .ok out ()) :
    ∃ es, traceNodes load fuel nodes ctx () = .ok es () ∧ out = es.flatMap Event.bytes := by
  rw [renderNodes_eq] at h
  obtain ⟨c, _, hentry, h⟩ := bind_eq_ok.mp h
  have hrender : (trace load fuel c ()).map (List.flatMap Event.bytes) = .ok out () := by
    rw [← renderCall_eq_trace]
    exact h
  cases htrace : trace load fuel c () with
  | ok es u =>
    rw [htrace] at hrender
    cases hrender
    exact ⟨es, bind_eq_ok.mpr ⟨c, _, hentry, htrace⟩, rfl⟩
  | error e u =>
    rw [htrace] at hrender
    cases hrender
  | timeout =>
    rw [htrace] at hrender
    cases hrender

end Runs

def greeting : List Node := [.text (ascii "<b>"), .var (ascii "x"), .text (ascii "</b>")]

theorem parse_greeting :
    parse [] (ascii "<b>\x7b$x\x7d</b>") = .ok (greeting, []) [] := by
  have hsrc : ascii "<b>\x7b$x\x7d</b>" = ascii "<b>" ++ 0x7B :: ascii "$x\x7d</b>" := by decide
  have hdir : tryBlock [] (0x7B :: ascii "$x\x7d</b>") =
      .ok (some (ascii "var", ascii "x")) (ascii "</b>") := by decide +kernel
  have hopen := parseLoop_text [] 9 [] [] [] (t := ascii "<b>") (by decide)
    (0x7B :: ascii "$x\x7d</b>")
  have hvar := parseLoop_node [] 8 (ascii "<b>") [] hdir List.not_mem_nil rfl
  have hclose := parseLoop_text [] 4 [] [] [.text (ascii "<b>"), .var (ascii "x")]
    (t := ascii "</b>") (by decide) []
  rw [parse, hsrc]
  exact hopen.trans (hvar.trans hclose)

end Template

end Look
