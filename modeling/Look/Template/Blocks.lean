/-
The blocks of a template.

A text whose directives are well formed one by one is a list of tokens (`Lexed`).  `walk` goes over
the tokens with the blocks that are open: it says which templates are nested well, and which ones end
inside of a block.  `tokens` reads the nodes of a tree in the order of the text.  The parser accepts
what `walk` accepts (`accepts_iff`), also where blocks are left open at the end, and the nodes have
the tokens of the text, but for an `{#else}` or `{#empty}` with arguments or with nothing behind it
(`blockStructure_iff`).
-/
import Look.Template.Literal

namespace Look

namespace Template

open Exec

/-! ## Tokens -/

/-- A text between directives, or a directive. -/
inductive Token where
  | text (t : Bytes)
  /-- A directive that is a node by itself. -/
  | leaf (n : Node)
  | openIf (condition : Bytes)
  | orElse (args : Bytes)
  | closeIf
  | openEach (list item : Bytes)
  | orEmpty (args : Bytes)
  | closeEach
  | openBlock (name : Bytes)
  | closeBlock

/-- A directive that is well formed, by its kind and its arguments. -/
inductive Known : Bytes → Bytes → Token → Prop where
  | var (args) : Known (ascii "var") args (.leaf (.var args))
  | rawVar (args) : Known (ascii "rawvar") args (.leaf (.rawVar args))
  | extends (args) : Known (ascii "#extends") args (.leaf (.extends (unquote args)))
  | include (args) : Known (ascii "#include") args (.leaf (includeNode args))
  | openIf (args) : Known (ascii "#if") args (.openIf args)
  | orElse (args) : Known (ascii "#else") args (.orElse args)
  | closeIf (args) : Known (ascii "/if") args .closeIf
  | openEach {args list item} (h : breakOn (ascii " as ") args = some (list, item)) :
    Known (ascii "#each") args (.openEach (dropDollar (trim list)) (dropDollar (trim item)))
  | orEmpty (args) : Known (ascii "#empty") args (.orEmpty args)
  | closeEach (args) : Known (ascii "/each") args .closeEach
  | openBlock (args) : Known (ascii "#block") args (.openBlock (unquote args))
  | closeBlock (args) : Known (ascii "/block") args .closeBlock

def texts (buf : Bytes) : List Token := if buf = [] then [] else [.text buf]

/-- The tokens of a text behind the bytes `buf`. -/
inductive Lexed (origin : Bytes) : Bytes → Bytes → List Token → Prop where
  | done {buf} : Lexed origin buf [] (texts buf)
  | byte {buf c s ps} (h : tryBlock origin (c :: s) = .ok none (c :: s))
    (rest : Lexed origin (buf ++ [c]) s ps) : Lexed origin buf (c :: s) ps
  | directive {buf s r kind args p ps} (h : tryBlock origin s = .ok (some (kind, args)) r)
    (hp : Known kind args p) (rest : Lexed origin [] r ps) :
    Lexed origin buf s (texts buf ++ p :: ps)

/-! ## Blocks that are open -/

inductive Frame where
  | ifBody
  | elseBody
  | eachBody
  | emptyBody
  | blockBody
deriving DecidableEq

/-- The blocks that are open behind a piece, the innermost first. -/
def Frame.step : List Frame → Token → Option (List Frame)
  | st, .text _ => some st
  | st, .leaf _ => some st
  | st, .openIf _ => some (.ifBody :: st)
  | .ifBody :: st, .orElse _ => some (.elseBody :: st)
  | .ifBody :: st, .closeIf => some st
  | .elseBody :: st, .closeIf => some st
  | st, .openEach _ _ => some (.eachBody :: st)
  | .eachBody :: st, .orEmpty _ => some (.emptyBody :: st)
  | .eachBody :: st, .closeEach => some st
  | .emptyBody :: st, .closeEach => some st
  | st, .openBlock _ => some (.blockBody :: st)
  | .blockBody :: st, .closeBlock => some st
  | _, _ => none

def walk (st : List Frame) (ps : List Token) : Option (List Frame) := ps.foldlM Frame.step st

/-- Every block is closed, by its own closing directive, and `{#else}` and `{#empty}` stand directly
inside of their blocks and at most once. -/
def WellNested (ps : List Token) : Prop := walk [] ps = some []

/-! ## The tokens of a tree -/

mutual

def nodeTokens : Node → List Token
  | .text t => [.text t]
  | .cond condition children alt =>
    .openIf condition :: (tokens children ++
      ((if alt.isEmpty then [] else [.orElse []]) ++ tokens alt) ++ [.closeIf])
  | .each list item children alt =>
    .openEach list item :: (tokens children ++
      ((if alt.isEmpty then [] else [.orEmpty []]) ++ tokens alt) ++ [.closeEach])
  | .block name children => .openBlock name :: (tokens children ++ [.closeBlock])
  | .var path => [.leaf (.var path)]
  | .rawVar path => [.leaf (.rawVar path)]
  | .extends path => [.leaf (.extends path)]
  | .include path data => [.leaf (.include path data)]

def tokens : List Node → List Token
  | [] => []
  | n :: ns => nodeTokens n ++ tokens ns

end

/-- The list begins with the end of an `{#if}`. -/
def endsIf : List Token → Bool
  | .closeIf :: _ => true
  | _ => false

def endsEach : List Token → Bool
  | .closeEach :: _ => true
  | _ => false

/-- There is an `{#else}` or an `{#empty}` that has arguments, or that nothing stands behind. -/
def bare : List Token → Bool
  | [] => false
  | .orElse args :: ps => !args.isEmpty || endsIf ps || bare ps
  | .orEmpty args :: ps => !args.isEmpty || endsEach ps || bare ps
  | _ :: ps => bare ps

/-! ## The tokens of the nodes -/

section Tokens

variable {ps qs : List Token} {p : Token} {ns : List Node} {n : Node}

theorem tokens_append (ns ms : List Node) : tokens (ns ++ ms) = tokens ns ++ tokens ms := by
  induction ns with
  | nil => rfl
  | cons n ns ih => rw [List.cons_append, tokens, tokens, ih, List.append_assoc]

theorem tokens_flush (buf : Bytes) : tokens (flush [] buf) = texts buf := by
  rw [flush, texts]
  split <;> rfl

theorem flush_append (out ns : List Node) (buf : Bytes) :
    flush (out ++ ns) buf = out ++ flush ns buf := by
  rw [flush, flush]
  split
  · rfl
  · exact List.append_assoc out ns _

/-- A node begins with no closing directive. -/
theorem not_ends_tokens (hne : ns ≠ []) (qs : List Token) :
    endsIf (tokens ns ++ qs) = false ∧ endsEach (tokens ns ++ qs) = false := by
  cases ns with
  | nil => exact absurd rfl hne
  | cons n ns => cases n <;> exact ⟨rfl, rfl⟩

mutual

theorem bare_nodeTokens : ∀ (n : Node) (qs : List Token), bare (nodeTokens n ++ qs) = bare qs
  | .text _, _ => rfl
  | .var _, _ => rfl
  | .rawVar _, _ => rfl
  | .extends _, _ => rfl
  | .include _ _, _ => rfl
  | .cond _ children alt, qs => by
    have halt : bare ((if alt.isEmpty then [] else [.orElse []]) ++ (tokens alt ++ .closeIf :: qs)) =
        bare (tokens alt ++ .closeIf :: qs) := by
      cases alt with
      | nil => rfl
      | cons m ms =>
        have hends := (not_ends_tokens (List.cons_ne_nil m ms) (.closeIf :: qs)).1
        rw [List.isEmpty_cons, if_neg Bool.false_ne_true, List.singleton_append, bare, hends]
        rfl
    simp only [nodeTokens, List.cons_append, List.append_assoc, List.nil_append, bare]
    rw [bare_tokens children, halt, bare_tokens alt, bare]
    all_goals nofun
  | .each _ _ children alt, qs => by
    have halt : bare ((if alt.isEmpty then [] else [.orEmpty []]) ++
        (tokens alt ++ .closeEach :: qs)) = bare (tokens alt ++ .closeEach :: qs) := by
      cases alt with
      | nil => rfl
      | cons m ms =>
        have hends := (not_ends_tokens (List.cons_ne_nil m ms) (.closeEach :: qs)).2
        rw [List.isEmpty_cons, if_neg Bool.false_ne_true, List.singleton_append, bare, hends]
        rfl
    simp only [nodeTokens, List.cons_append, List.append_assoc, List.nil_append, bare]
    rw [bare_tokens children, halt, bare_tokens alt, bare]
    all_goals nofun
  | .block _ children, qs => by
    simp only [nodeTokens, List.cons_append, List.append_assoc, List.nil_append, bare]
    rw [bare_tokens children, bare]
    all_goals nofun

theorem bare_tokens : ∀ (ns : List Node) (qs : List Token), bare (tokens ns ++ qs) = bare qs
  | [], _ => rfl
  | n :: ns, qs => by
    rw [tokens, List.append_assoc, bare_nodeTokens n, bare_tokens ns]

end

end Tokens

/-! ## Tokens that are read -/

section Walk

variable {st st' : List Frame} {ps qs : List Token} {t : Token}

theorem walk_cons (st : List Frame) (t : Token) (ps : List Token) :
    walk st (t :: ps) = (Frame.step st t).bind fun st' => walk st' ps := rfl

theorem walk_texts (st : List Frame) (buf : Bytes) (ps : List Token) :
    walk st (texts buf ++ ps) = walk st ps := by
  rw [texts]
  split
  · rfl
  · cases st <;> rfl

/-- What lies below the open blocks does not matter to a token that opens or closes above it. -/
theorem step_append (h : Frame.step st t = some st') (below : List Frame) :
    Frame.step (st ++ below) t = some (st' ++ below) := by
  unfold Frame.step at h
  split at h <;> cases h <;> rfl

theorem walk_append (h : walk st ps = some st') (below : List Frame) (qs : List Token) :
    walk (st ++ below) (ps ++ qs) = walk (st' ++ below) qs := by
  induction ps generalizing st with
  | nil =>
    cases h
    rfl
  | cons t ps ih =>
    rw [walk_cons] at h
    obtain ⟨st₁, hstep, h⟩ := Option.bind_eq_some_iff.mp h
    rw [List.cons_append, walk_cons, step_append hstep below, Option.bind_some]
    exact ih h

/-- Tokens that are nested well leave every block as it is. -/
theorem walk_nested (h : WellNested ps) (st : List Frame) (qs : List Token) :
    walk st (ps ++ qs) = walk st qs := walk_append h st qs

theorem walk_leaf (st : List Frame) (n : Node) (qs : List Token) :
    walk st (.leaf n :: qs) = walk st qs := by
  cases st <;> rfl

theorem bare_append (ps : List Token) (h : bare (ps ++ qs) = false) : bare qs = false := by
  induction ps with
  | nil => exact h
  | cons p ps ih =>
    refine ih ?_
    cases p <;> simp_all [bare]

end Walk

/-- The directives at which the nodes of a block end. -/
def Frame.stops : Frame → List Bytes
  | .ifBody => [ascii "#else", ascii "/if"]
  | .elseBody => [ascii "/if"]
  | .eachBody => [ascii "#empty", ascii "/each"]
  | .emptyBody => [ascii "/each"]
  | .blockBody => [ascii "/block"]

def stopsOf : List Frame → List Bytes
  | [] => []
  | f :: _ => f.stops

section Reads

variable (origin : Bytes)

/-- Nodes have been read behind `out`: to the end of the text, maybe inside of blocks, or to a
directive at which they end. -/
inductive Stopped (st : List Frame) (ps : List Token) (out : List Node) :
    List Node × Bytes → Bytes → Prop where
  | atEnd {ns st'} (hwalk : walk [] ps = some st')
    (htokens : st' = [] → bare ps = false → tokens ns = tokens out ++ ps) :
    Stopped st ps out (ns, []) []
  | atStop {ns qs t rest kind args r} (hps : ps = qs ++ t :: rest) (hqs : WellNested qs)
    (hkind : kind ∈ stopsOf st) (hknown : Known kind args t) (hrest : Lexed origin [] r rest)
    (htokens : bare ps = false → tokens ns = tokens out ++ qs) : Stopped st ps out (ns, kind) r

/-- The nodes inside of the blocks `st` are read out of `ps`, or `ps` does not fit these blocks. -/
def Reads (st : List Frame) (ps : List Token) (out : List Node) :
    Res Bytes Error (List Node × Bytes) → Prop
  | .ok p r => Stopped origin st ps out p r
  | .error _ _ => walk st ps = none
  | .timeout => False

/-- A directive has become a node with its whole block, or the text ends inside of the block. -/
inductive Made (ps : List Token) : Node → Bytes → Prop where
  | whole {n qs rest r} (hps : ps = qs ++ rest) (hqs : WellNested qs)
    (hrest : Lexed origin [] r rest) (htokens : bare ps = false → nodeTokens n = qs) : Made ps n r
  | unclosed {n st'} (hwalk : walk [] ps = some st') (hne : st' ≠ []) : Made ps n []

def ReadsNode (st : List Frame) (ps : List Token) : Res Bytes Error Node → Prop
  | .ok n r => Made origin ps n r
  | .error _ _ => walk st ps = none
  | .timeout => False

variable {origin}

/-! ### Directives with two parts -/

/-- `{#if}` and `{#each}`: the nodes up to the middle or to the end, then the nodes up to the end. -/
def twoPartNode (parse : List Bytes → Parser (List Node × Bytes)) (m c : Bytes)
    (mk : List Node → List Node → Node) : Parser Node := do
  let (children, stop) ← parse [m, c]
  if stop = m then do
    let (alt, _) ← parse [c]
    pure (mk children alt)
  else pure (mk children [])

/-- How a block with two parts opens, goes on and closes. -/
structure TwoParts (o : Token) (first second : Frame) (m c : Bytes) (mid : Bytes → Token)
    (close : Token) (mk : List Node → List Node → Node) : Prop where
  firstStops : first.stops = [m, c]
  secondStops : second.stops = [c]
  ne_nil : m ≠ []
  ne_close : c ≠ m
  knownMid : ∀ {args t}, Known m args t → t = mid args
  knownClose : ∀ {args t}, Known c args t → t = close
  opens : ∀ st, Frame.step st o = some (first :: st)
  parts : ∀ st args, Frame.step (first :: st) (mid args) = some (second :: st)
  closesFirst : ∀ st, Frame.step (first :: st) close = some st
  closesSecond : ∀ st, Frame.step (second :: st) close = some st
  tokens_mk : ∀ children alt, nodeTokens (mk children alt) = o :: (tokens children ++
    ((if alt.isEmpty then [] else [mid []]) ++ tokens alt) ++ [close])
  bare_mid : ∀ {args qs rest}, bare (mid args :: (qs ++ close :: rest)) = false →
    args = [] ∧ qs ≠ []

section TwoParts

variable {o close : Token} {first second : Frame} {m c : Bytes} {mid : Bytes → Token}
  {mk : List Node → List Node → Node} {parse : List Bytes → Parser (List Node × Bytes)} {fuel : Nat}
  {st : List Frame} {s : Bytes} {rest : List Token}

/-- Behind the middle of the block. -/
theorem TwoParts.readsSecond (h : TwoParts o first second m c mid close mk)
    (hparse : ∀ st s ps, Lexed origin [] s ps → s.length < fuel →
      Reads origin st ps [] (parse (stopsOf st) s))
    {children : List Node} {qs : List Token} {args r : Bytes} {rest' : List Token}
    (hrest : rest = qs ++ mid args :: rest') (hqs : WellNested qs)
    (hlex : Lexed origin [] r rest') (hr : r.length < fuel)
    (htokens : bare rest = false → tokens children = qs) :
    ReadsNode origin st (o :: rest)
      ((do
        let (alt, _) ← parse [c]
        pure (mk children alt)) r) := by
  have hwalk : ∀ st', walk st' (o :: rest) = walk (second :: st') rest' := by
    intro st'
    rw [walk_cons, h.opens, Option.bind_some, hrest, walk_nested hqs, walk_cons, h.parts]
    rfl
  have hsecond := hparse (second :: st) r rest' hlex hr
  rw [stopsOf, h.secondStops] at hsecond
  rw [bind_apply]
  cases hres : parse [c] r with
  | timeout =>
    rw [hres] at hsecond
    exact hsecond
  | error e r' =>
    rw [hres] at hsecond
    exact (hwalk st).trans hsecond
  | ok p r' =>
    rw [hres] at hsecond
    cases hsecond with
    | @atEnd alt st' hend _ =>
      have happ := walk_append hend [second] []
      rw [List.append_nil] at happ
      exact .unclosed ((hwalk []).trans happ) (by simp)
    | @atStop alt qs' t rest'' kind args' r' hps hqs' hkind hknown hlex' htokens' =>
      rw [stopsOf, h.secondStops, List.mem_singleton] at hkind
      subst hkind
      cases h.knownClose hknown
      have hall : o :: rest = (o :: (qs ++ mid args :: (qs' ++ [close]))) ++ rest'' := by
        rw [hrest, hps]
        simp
      refine .whole hall ?_ hlex' ?_
      · unfold WellNested
        rw [walk_cons, h.opens, Option.bind_some, walk_nested hqs, walk_cons, h.parts,
          Option.bind_some, walk_nested hqs', walk_cons, h.closesSecond]
        rfl
      · intro hbare
        have hbare₁ : bare rest = false := bare_append [o] hbare
        have hbare₂ : bare (mid args :: rest') = false := bare_append qs (hrest ▸ hbare₁)
        have halt : tokens alt = qs' := htokens' (bare_append [mid args] hbare₂)
        rw [hps] at hbare₂
        obtain ⟨rfl, hne⟩ := h.bare_mid hbare₂
        have hempty : alt.isEmpty = false := by
          cases alt with
          | nil => exact absurd halt.symm hne
          | cons n ns => rfl
        rw [h.tokens_mk, htokens hbare₁, halt, hempty, if_neg Bool.false_ne_true]
        simp

theorem TwoParts.reads (h : TwoParts o first second m c mid close mk)
    (hparse : ∀ st s ps, Lexed origin [] s ps → s.length < fuel →
      Reads origin st ps [] (parse (stopsOf st) s))
    (hshrink : ∀ stops s p r, s.length < fuel → parse stops s = .ok p r → r.length ≤ s.length)
    (hlex : Lexed origin [] s rest) (hs : s.length < fuel) :
    ReadsNode origin st (o :: rest) (twoPartNode parse m c mk s) := by
  have hwalk : ∀ st', walk st' (o :: rest) = walk (first :: st') rest := by
    intro st'
    rw [walk_cons, h.opens]
    rfl
  have hfirst := hparse (first :: st) s rest hlex hs
  rw [stopsOf, h.firstStops] at hfirst
  rw [twoPartNode, bind_apply]
  cases hres : parse [m, c] s with
  | timeout =>
    rw [hres] at hfirst
    exact hfirst
  | error e r =>
    rw [hres] at hfirst
    exact (hwalk st).trans hfirst
  | ok p r =>
    have hr := hshrink _ _ _ _ hs hres
    rw [hres] at hfirst
    cases hfirst with
    | @atEnd children st' hend _ =>
      dsimp only
      rw [if_neg (Ne.symm h.ne_nil)]
      have happ := walk_append hend [first] []
      rw [List.append_nil] at happ
      exact .unclosed ((hwalk []).trans happ) (by simp)
    | @atStop children qs t rest' kind args r hps hqs hkind hknown hlex' htokens =>
      rw [stopsOf, h.firstStops, List.mem_cons, List.mem_singleton] at hkind
      dsimp only
      obtain rfl | rfl := hkind
      · rw [if_pos rfl]
        cases h.knownMid hknown
        exact h.readsSecond hparse hps hqs hlex' (Nat.lt_of_le_of_lt hr hs) htokens
      · rw [if_neg h.ne_close]
        cases h.knownClose hknown
        have hall : o :: rest = (o :: (qs ++ [close])) ++ rest' := by
          rw [hps]
          simp
        refine .whole hall ?_ hlex' ?_
        · unfold WellNested
          rw [walk_cons, h.opens, Option.bind_some, walk_nested hqs, walk_cons, h.closesFirst]
          rfl
        · intro hbare
          have htok : tokens children = qs := htokens (bare_append [o] hbare)
          rw [h.tokens_mk, htok]
          simp [tokens]

end TwoParts

theorem twoParts_if (condition : Bytes) : TwoParts (.openIf condition) .ifBody .elseBody
    (ascii "#else") (ascii "/if") .orElse .closeIf (.cond condition) where
  firstStops := rfl
  secondStops := rfl
  ne_nil := by decide
  ne_close := by decide
  knownMid := fun h => by cases h; rfl
  knownClose := fun h => by cases h; rfl
  opens := fun st => by cases st <;> rfl
  parts := fun _ _ => rfl
  closesFirst := fun _ => rfl
  closesSecond := fun _ => rfl
  tokens_mk := fun _ _ => rfl
  bare_mid := fun {args qs rest} h => by
    rw [bare, Bool.or_eq_false_iff, Bool.or_eq_false_iff] at h
    refine ⟨by simpa using h.1.1, ?_⟩
    rintro rfl
    exact Bool.noConfusion h.1.2

theorem twoParts_each (list item : Bytes) : TwoParts (.openEach list item) .eachBody .emptyBody
    (ascii "#empty") (ascii "/each") .orEmpty .closeEach (.each list item) where
  firstStops := rfl
  secondStops := rfl
  ne_nil := by decide
  ne_close := by decide
  knownMid := fun h => by cases h; rfl
  knownClose := fun h => by cases h; rfl
  opens := fun st => by cases st <;> rfl
  parts := fun _ _ => rfl
  closesFirst := fun _ => rfl
  closesSecond := fun _ => rfl
  tokens_mk := fun _ _ => rfl
  bare_mid := fun {args qs rest} h => by
    rw [bare, Bool.or_eq_false_iff, Bool.or_eq_false_iff] at h
    refine ⟨by simpa using h.1.1, ?_⟩
    rintro rfl
    exact Bool.noConfusion h.1.2

/-! ### The loop -/

section Loop

variable {parse : List Bytes → Parser (List Node × Bytes)} {fuel : Nat} {st : List Frame}
  {s : Bytes} {rest : List Token}

theorem readsNode_block
    (hparse : ∀ st s ps, Lexed origin [] s ps → s.length < fuel →
      Reads origin st ps [] (parse (stopsOf st) s))
    (hlex : Lexed origin [] s rest) (hs : s.length < fuel) (args : Bytes) :
    ReadsNode origin st (.openBlock (unquote args) :: rest) ((do
      let (children, _) ← parse [ascii "/block"]
      pure (Node.block (unquote args) children)) s) := by
  have hwalk : ∀ st', walk st' (.openBlock (unquote args) :: rest) = walk (.blockBody :: st') rest :=
    fun st' => by cases st' <;> rfl
  have hbody := hparse (.blockBody :: st) s rest hlex hs
  rw [stopsOf, Frame.stops] at hbody
  rw [bind_apply]
  cases hres : parse [ascii "/block"] s with
  | timeout =>
    rw [hres] at hbody
    exact hbody
  | error e r =>
    rw [hres] at hbody
    exact (hwalk st).trans hbody
  | ok p r =>
    rw [hres] at hbody
    cases hbody with
    | @atEnd children st' hend _ =>
      have happ := walk_append hend [.blockBody] []
      rw [List.append_nil] at happ
      exact .unclosed ((hwalk []).trans happ) (by simp)
    | @atStop children qs t rest' kind args' r hps hqs hkind hknown hlex' htokens =>
      rw [stopsOf, Frame.stops, List.mem_singleton] at hkind
      subst hkind
      cases hknown
      have hall : .openBlock (unquote args) :: rest =
          (.openBlock (unquote args) :: (qs ++ [.closeBlock])) ++ rest' := by
        rw [hps]
        simp
      refine .whole hall ?_ hlex' fun hbare => ?_
      · unfold WellNested
        rw [walk_cons]
        exact walk_nested hqs [.blockBody] [.closeBlock]
      · have htok : tokens children = qs := htokens (bare_append [_] hbare)
        rw [nodeTokens, htok]

/-- A directive that does not end the nodes. -/
theorem directive_reads
    (hparse : ∀ st s ps, Lexed origin [] s ps → s.length < fuel →
      Reads origin st ps [] (parse (stopsOf st) s))
    (hshrink : ∀ stops s p r, s.length < fuel → parse stops s = .ok p r → r.length ≤ s.length)
    (hlex : Lexed origin [] s rest) (hs : s.length < fuel) {kind args : Bytes} {t : Token}
    (hknown : Known kind args t) (hstop : kind ∉ stopsOf st) :
    ReadsNode origin st (t :: rest) (directive origin parse kind args s) := by
  have hleaf : ∀ n : Node, nodeTokens n = [.leaf n] →
      ReadsNode origin st (.leaf n :: rest) (.ok n s) := fun n hn =>
    .whole (List.singleton_append).symm rfl hlex fun _ => hn
  have hthrow : ∀ e : Error, Frame.step st t = none →
      ReadsNode origin st (t :: rest) (throw e s) := by
    intro e hstep
    change walk st (t :: rest) = none
    rw [walk_cons, hstep]
    rfl
  have hends : Frame.step [] t = none →
      (∀ f st, kind ∉ Frame.stops f → Frame.step (f :: st) t = none) → Frame.step st t = none := by
    intro hnil hcons
    cases st with
    | nil => exact hnil
    | cons f st => exact hcons f st hstop
  cases hknown with
  | var => exact hleaf _ rfl
  | rawVar => exact hleaf _ rfl
  | «extends» => exact hleaf _ rfl
  | «include» =>
    refine hleaf _ ?_
    unfold includeNode
    split <;> rfl
  | openIf => exact (twoParts_if args).reads hparse hshrink hlex hs
  | @openEach _ list item h =>
    have hnames : eachNames origin args s =
        .ok (dropDollar (trim list), dropDollar (trim item)) s := by
      rw [eachNames, h]
      rfl
    have hnode : directive origin parse (ascii "#each") args s =
        twoPartNode parse (ascii "#empty") (ascii "/each")
          (.each (dropDollar (trim list)) (dropDollar (trim item))) s := by
      rw [directive, if_neg (by decide), if_neg (by decide), if_neg (by decide), if_pos rfl,
        bind_of_ok hnames]
      rfl
    rw [hnode]
    exact (twoParts_each _ _).reads hparse hshrink hlex hs
  | openBlock => exact readsNode_block hparse hlex hs args
  -- a directive that ends no block here
  | orElse =>
    refine hthrow _ (hends rfl fun f st hf => ?_)
    cases f <;> first | rfl | exact absurd (by decide) hf
  | closeIf =>
    refine hthrow _ (hends rfl fun f st hf => ?_)
    cases f <;> first | rfl | exact absurd (by decide) hf
  | orEmpty =>
    refine hthrow _ (hends rfl fun f st hf => ?_)
    cases f <;> first | rfl | exact absurd (by decide) hf
  | closeEach =>
    refine hthrow _ (hends rfl fun f st hf => ?_)
    cases f <;> first | rfl | exact absurd (by decide) hf
  | closeBlock =>
    refine hthrow _ (hends rfl fun f st hf => ?_)
    cases f <;> first | rfl | exact absurd (by decide) hf

theorem Directive.brace {r : Bytes} {as : List Atom} (h : Directive s as r) :
    ∃ s', s = 0x7B :: s' := by
  cases h <;> exact ⟨_, rfl⟩

theorem parseLoop_error (origin : Bytes) (fuel : Nat) {stops : List Bytes} (buf : Bytes)
    (out : List Node) {s s' s'' kind args : Bytes} {e : Error}
    (h : tryBlock origin (0x7B :: s) = .ok (some (kind, args)) s') (hstop : kind ∉ stops)
    (hn : directive origin (fun stops => parseLoop origin fuel stops [] []) kind args s' =
      .error e s'') :
    parseLoop origin (fuel + 1) stops buf out (0x7B :: s) = .error e s'' := by
  rw [parseLoop, bind_apply, gets_apply]
  dsimp only [List.head?_cons]
  rw [if_neg (not_not_intro rfl), bind_of_ok h]
  dsimp only
  rw [if_neg hstop, bind_apply, hn]

/-- The loop reads the tokens of the text, in the blocks that are open. -/
theorem parseLoop_reads {buf : Bytes} {out : List Node} {ps : List Token}
    (hlex : Lexed origin buf s ps) (hs : s.length < fuel) :
    Reads origin st ps out (parseLoop origin fuel (stopsOf st) buf out s) := by
  induction fuel generalizing st buf out s ps with
  | zero => exact absurd hs (Nat.not_lt_zero _)
  | succ fuel ih =>
    have hflush : tokens (flush out buf) = tokens out ++ texts buf := by
      have hout := flush_append out [] buf
      rw [List.append_nil] at hout
      rw [hout, tokens_append, tokens_flush]
    have hnested : WellNested (texts buf) := by
      have hwalk := walk_texts [] buf []
      rwa [List.append_nil] at hwalk
    cases hlex with
    | done => exact .atEnd hnested fun _ _ => hflush
    | @byte _ c s _ htry hrest =>
      have hbyte : parseLoop origin (fuel + 1) (stopsOf st) buf out (c :: s) =
          parseLoop origin fuel (stopsOf st) (buf ++ [c]) out s := by
        rw [parseLoop, bind_apply, gets_apply]
        dsimp only [List.head?_cons]
        by_cases hc : c ≠ 0x7B
        · rw [if_pos hc]
          rfl
        · rw [if_neg hc, bind_of_ok htry]
          rfl
      rw [hbyte]
      exact ih hrest (Nat.lt_of_succ_lt_succ hs)
    | @directive _ _ r kind args t ps htry hknown hrest =>
      obtain ⟨hnone, -, -⟩ | ⟨_, _, -, hdir⟩ := tryBlock_eq_ok htry
      · cases hnone
      obtain ⟨s, rfl⟩ := hdir.brace
      have hr : r.length < fuel :=
        Nat.lt_of_lt_of_le hdir.length_lt (Nat.le_of_lt_succ hs)
      by_cases hstop : kind ∈ stopsOf st
      · rw [parseLoop_stop origin fuel buf out htry hstop]
        exact .atStop rfl hnested hstop hknown hrest fun _ => hflush
      have hparse : ∀ st s ps, Lexed origin [] s ps → s.length < fuel →
          Reads origin st ps [] (parseLoop origin fuel (stopsOf st) [] [] s) :=
        fun st s ps hlex hs => ih hlex hs
      have hnode := directive_reads hparse
        (fun stops s p r hs h => ((parseLoop_finishes stops [] [] hs).of_ok h).1)
        hrest hr hknown hstop
      cases hres : directive origin (fun stops => parseLoop origin fuel stops [] []) kind args r with
      | timeout =>
        rw [hres] at hnode
        exact hnode.elim
      | error e r' =>
        rw [hres] at hnode
        rw [parseLoop_error origin fuel buf out htry hstop hres]
        change walk st (texts buf ++ t :: ps) = none
        rw [walk_texts]
        exact hnode
      | ok n r' =>
        have hr' : r'.length < fuel := by
          have hle := ((directive_finishes (fun stops s hs => parseLoop_finishes stops [] [] hs)
            kind args hr).of_ok hres).1
          exact Nat.lt_of_le_of_lt hle hr
        rw [hres] at hnode
        rw [parseLoop_node origin fuel buf out htry hstop hres]
        cases hnode with
        | unclosed hwalk hne =>
          obtain ⟨fuel, rfl⟩ := Nat.exists_eq_add_of_lt hr'
          rw [parseLoop_nil]
          refine .atEnd ((walk_texts [] buf _).trans hwalk) fun hnil => absurd hnil hne
        | @whole qs rest _ hps hqs hrest' htokens =>
          have hnext : Reads origin st rest (flush out buf ++ [n])
              (parseLoop origin fuel (stopsOf st) [] (flush out buf ++ [n]) r') := ih hrest' hr'
          have hall : tokens (flush out buf ++ [n]) = tokens out ++ (texts buf ++ nodeTokens n) := by
            rw [tokens_append, hflush, tokens, tokens, List.append_nil, List.append_assoc]
          have hwalk : ∀ st', walk st' (texts buf ++ t :: ps) = walk st' rest := fun st' => by
            rw [walk_texts, hps, walk_nested hqs]
          have hbare : bare (texts buf ++ t :: ps) = false → bare rest = false ∧ nodeTokens n = qs := by
            intro h
            have ht := bare_append _ h
            exact ⟨bare_append qs (hps ▸ ht), htokens ht⟩
          cases hloop : parseLoop origin fuel (stopsOf st) [] (flush out buf ++ [n]) r' with
          | timeout =>
            rw [hloop] at hnext
            exact hnext
          | error e r'' =>
            rw [hloop] at hnext
            exact (hwalk st).trans hnext
          | ok p r'' =>
            rw [hloop] at hnext
            cases hnext with
            | atEnd hend hns =>
              refine .atEnd ((hwalk []).trans hend) fun hnil h => ?_
              obtain ⟨hrest, hn⟩ := hbare h
              rw [hns hnil hrest, hall, hn, hps]
              simp
            | @atStop ns qs' t' rest' _ _ _ hps' hqs' hkind hknown' hlex' hns =>
              have hqall : texts buf ++ t :: ps = (texts buf ++ (qs ++ qs')) ++ t' :: rest' := by
                rw [hps, hps']
                simp
              refine .atStop hqall ?_ hkind hknown' hlex' fun h => ?_
              · exact (walk_texts [] buf _).trans ((walk_nested hqs [] qs').trans hqs')
              · obtain ⟨hrest, hn⟩ := hbare h
                rw [hns hrest, hall, hn]
                simp

end Loop

end Reads

/-! ## Templates -/

/-- A template is accepted exactly if it is nested well, and then its nodes, read in order, are its
texts and its directives. -/
def BlockStructure (origin src : Bytes) (ps : List Token) : Prop :=
  ((∃ ns stop r, parse origin src = .ok (ns, stop) r) ↔ WellNested ps) ∧
    ∀ ns stop r, parse origin src = .ok (ns, stop) r → tokens ns = ps

section Templates

variable {origin src : Bytes} {ps : List Token}

theorem parse_reads (h : Lexed origin [] src ps) : Reads origin [] ps [] (parse origin src) :=
  parseLoop_reads h (Nat.lt_succ_self _)

/-- What is accepted is nested well as far as it goes. -/
theorem accepts_iff (h : Lexed origin [] src ps) :
    (∃ ns stop r, parse origin src = .ok (ns, stop) r) ↔ ∃ st, walk [] ps = some st := by
  have hreads := parse_reads h
  cases hparse : parse origin src with
  | timeout =>
    rw [hparse] at hreads
    exact hreads.elim
  | error e r =>
    rw [hparse] at hreads
    change walk [] ps = none at hreads
    rw [hreads]
    exact ⟨nofun, nofun⟩
  | ok p r =>
    refine ⟨fun _ => ?_, fun _ => ⟨p.1, p.2, r, rfl⟩⟩
    rw [hparse] at hreads
    cases hreads with
    | atEnd hwalk _ => exact ⟨_, hwalk⟩
    | atStop _ _ hkind _ _ _ => cases hkind

theorem tokens_of_parse (h : Lexed origin [] src ps) (hnested : WellNested ps)
    (hbare : bare ps = false) {ns : List Node} {stop r : Bytes}
    (hparse : parse origin src = .ok (ns, stop) r) : tokens ns = ps := by
  have hreads := parse_reads h
  rw [hparse] at hreads
  cases hreads with
  | atEnd hwalk htokens =>
    rw [hnested] at hwalk
    cases hwalk
    exact htokens rfl hbare
  | atStop _ _ hkind _ _ _ => cases hkind

/-- The templates that end inside of a block, and those with an `{#else}` or `{#empty}` that has
arguments or nothing behind it, are the exceptions. -/
theorem blockStructure_iff (h : Lexed origin [] src ps) :
    BlockStructure origin src ps ↔
      (∀ st, walk [] ps = some st → st = []) ∧ (WellNested ps → bare ps = false) := by
  constructor
  · rintro ⟨haccepts, htokens⟩
    have hclosed : ∀ st, walk [] ps = some st → st = [] := by
      intro st hst
      have hnested := haccepts.mp ((accepts_iff h).mpr ⟨st, hst⟩)
      rw [hnested] at hst
      cases hst
      rfl
    refine ⟨hclosed, fun hnested => ?_⟩
    obtain ⟨ns, stop, r, hparse⟩ := haccepts.mpr hnested
    have hbare := bare_tokens ns []
    rwa [List.append_nil, htokens ns stop r hparse] at hbare
  · rintro ⟨hclosed, hbare⟩
    have haccepts : (∃ ns stop r, parse origin src = .ok (ns, stop) r) ↔ WellNested ps := by
      rw [accepts_iff h]
      refine ⟨fun ⟨st, hst⟩ => ?_, fun hnested => ⟨_, hnested⟩⟩
      cases hclosed st hst
      exact hst
    refine ⟨haccepts, fun ns stop r hparse => ?_⟩
    have hnested := haccepts.mp ⟨ns, stop, r, hparse⟩
    exact tokens_of_parse h hnested (hbare hnested) hparse

/-- `{#if a}x{/if}`, with its tokens. -/
theorem lexed_if : Lexed [] [] (ascii "\x7b#if a\x7dx\x7b/if\x7d")
    [.openIf (ascii "a"), .text (ascii "x"), .closeIf] := by
  have hopen : tryBlock [] (ascii "\x7b#if a\x7dx\x7b/if\x7d") =
      .ok (some (ascii "#if", ascii "a")) (ascii "x\x7b/if\x7d") := by decide +kernel
  have hbyte : tryBlock [] (ascii "x\x7b/if\x7d") = .ok none (ascii "x\x7b/if\x7d") := by
    decide +kernel
  have hclose : tryBlock [] (ascii "\x7b/if\x7d") = .ok (some (ascii "/if", [])) [] := by
    decide +kernel
  exact .directive hopen (.openIf _) (.byte hbyte (.directive hclose (.closeIf _) .done))

theorem blockStructure_if : BlockStructure [] (ascii "\x7b#if a\x7dx\x7b/if\x7d")
    [.openIf (ascii "a"), .text (ascii "x"), .closeIf] :=
  (blockStructure_iff lexed_if).mpr ⟨fun st h => by cases h; rfl, fun _ => rfl⟩

/-- `{#if a}x` is accepted, although its block has no end. -/
theorem unclosed_accepted :
    Lexed [] [] (ascii "\x7b#if a\x7dx") [.openIf (ascii "a"), .text (ascii "x")] ∧
      ¬BlockStructure [] (ascii "\x7b#if a\x7dx") [.openIf (ascii "a"), .text (ascii "x")] := by
  have hopen : tryBlock [] (ascii "\x7b#if a\x7dx") =
      .ok (some (ascii "#if", ascii "a")) (ascii "x") := by decide +kernel
  have hbyte : tryBlock [] (ascii "x") = .ok none (ascii "x") := by decide +kernel
  have hlexed : Lexed [] [] (ascii "\x7b#if a\x7dx") [.openIf (ascii "a"), .text (ascii "x")] :=
    .directive hopen (.openIf _) (.byte hbyte .done)
  refine ⟨hlexed, fun ⟨haccepts, _⟩ => ?_⟩
  have hnested := haccepts.mp ((accepts_iff hlexed).mpr ⟨[.ifBody], rfl⟩)
  cases hnested

end Templates

end Template

end Look
