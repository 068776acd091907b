/-
The text of a template and its nodes.

A template is written as bytes and directives (`Written`): a brace that opens no directive is
a byte like any other.  The nodes that `parse` returns have, in the order of the text, exactly
those bytes and the variables of those directives (`parse_written`), and `parse` always comes
to an end (`parse_ne_timeout`).
-/
import Look.Lib.Loop
import Look.Template.Parse

namespace Look

namespace Template

open Exec

/-- A byte of the text, or a variable. -/
inductive Atom where
  | byte (c : UInt8)
  | hole (path : Bytes)
  | raw (path : Bytes)

/-! ## The text -/

/-- A directive begins here. -/
def Opens (s : Bytes) : Prop :=
  [0x7B, 0x21, 0x24] <+: s ∨ [0x7B, 0x24] <+: s ∨ [0x7B, 0x23] <+: s ∨ [0x7B, 0x2F] <+: s

/-- A directive, what it stands for and what is behind it. -/
inductive Directive : Bytes → List Atom → Bytes → Prop where
  | rawVar {path : Bytes} (r : Bytes) (h : 0x7D ∉ path) :
    Directive ([0x7B, 0x21, 0x24] ++ path ++ 0x7D :: r) [.raw (trim path)] r
  | var {path : Bytes} (r : Bytes) (h : 0x7D ∉ path) :
    Directive ([0x7B, 0x24] ++ path ++ 0x7D :: r) [.hole (trim path)] r
  | opening {content : Bytes} (r : Bytes) (h : 0x7D ∉ content) :
    Directive ([0x7B, 0x23] ++ content ++ 0x7D :: r) [] r
  | closing {content : Bytes} (r : Bytes) (h : 0x7D ∉ content) :
    Directive ([0x7B, 0x2F] ++ content ++ 0x7D :: r) [] r

/-- Bytes and directives up to some place in a text. -/
inductive Written : Bytes → List Atom → Bytes → Prop where
  | done (s : Bytes) : Written s [] s
  | byte {c : UInt8} {s r : Bytes} {as : List Atom} (h : ¬Opens (c :: s)) (rest : Written s as r) :
    Written (c :: s) (.byte c :: as) r
  | directive {s s' r : Bytes} {as bs : List Atom} (h : Directive s as s') (rest : Written s' bs r) :
    Written s (as ++ bs) r

theorem Written.append {s s' r : Bytes} {as bs : List Atom} (h : Written s as s')
    (h' : Written s' bs r) : Written s (as ++ bs) r := by
  induction h with
  | done => exact h'
  | byte hc _ ih => exact .byte hc (ih h')
  | directive hd _ ih =>
    rw [List.append_assoc]
    exact .directive hd (ih h')

/-! ## The nodes -/

mutual

/-- The bytes and variables of a node, in the order of the text. -/
def nodeAtoms : Node → List Atom
  | .text t => t.map .byte
  | .var path => [.hole path]
  | .rawVar path => [.raw path]
  | .cond _ children alt => atoms children ++ atoms alt
  | .each _ _ children alt => atoms children ++ atoms alt
  | .extends _ => []
  | .block _ children => atoms children
  | .include _ _ => []

def atoms : List Node → List Atom
  | [] => []
  | n :: ns => nodeAtoms n ++ atoms ns

end

theorem atoms_append (ns ms : List Node) : atoms (ns ++ ms) = atoms ns ++ atoms ms := by
  induction ns with
  | nil => rfl
  | cons n ns ih => rw [List.cons_append, atoms, atoms, ih, List.append_assoc]

theorem atoms_flush (out : List Node) (buf : Bytes) :
    atoms (flush out buf) = atoms out ++ buf.map .byte := by
  unfold flush
  split
  · rename_i h
    rw [h, List.map_nil, List.append_nil]
  · rw [atoms_append, atoms, atoms, nodeAtoms, List.append_nil]

/-- What the kind and the arguments of a directive stand for. -/
def kindAtoms (kind args : Bytes) : List Atom :=
  if kind = ascii "var" then [.hole args]
  else if kind = ascii "rawvar" then [.raw args]
  else []

/-! ## The parser reads what is written -/

section Parser

variable {origin : Bytes}

theorem readUntilClose_eq_ok {msg s content r : Bytes}
    (h : readUntilClose origin msg s = .ok content r) :
    s = content ++ 0x7D :: r ∧ 0x7D ∉ content := by
  unfold readUntilClose at h
  cases hbreak : breakOn [0x7D] s with
  | none =>
    rw [hbreak] at h
    cases h
  | some p =>
    obtain ⟨before, rest⟩ := p
    rw [hbreak] at h
    cases h
    have hs := breakOn_eq hbreak
    refine ⟨by rw [hs, List.append_assoc]; rfl, fun hmem => ?_⟩
    obtain ⟨u, w, rfl⟩ := List.append_of_mem hmem
    have hs' : s = u ++ [0x7D] ++ (w ++ [0x7D] ++ r) := by
      rw [hs]
      simp
    have hlen := breakOn_first hbreak hs'
    rw [List.length_append, List.length_cons] at hlen
    omega

theorem validateLoop_eq_ok {path cs s r : Bytes} {u : Unit}
    (h : validateLoop path cs s = .ok u r) : r = s := by
  induction cs with
  | nil =>
    cases h
    rfl
  | cons c cs ih =>
    rw [validateLoop] at h
    split at h
    · cases h
    · split at h
      · cases h
      · exact ih h

theorem variableDirective_eq_ok {kind msg s args r : Bytes} {kind' : Bytes}
    (h : variableDirective origin kind msg s = .ok (kind', args) r) :
    kind' = kind ∧ ∃ path, 0x7D ∉ path ∧ args = trim path ∧ s = path ++ 0x7D :: r := by
  obtain ⟨path, s₁, hread, h⟩ := bind_eq_ok.mp h
  obtain ⟨_, s₂, hvalid, h⟩ := bind_eq_ok.mp h
  cases h
  obtain ⟨rfl, hnot⟩ := readUntilClose_eq_ok hread
  cases validateLoop_eq_ok hvalid
  exact ⟨rfl, path, hnot, rfl, rfl⟩

theorem opening_eq_ok {s kind args r : Bytes} (h : opening origin s = .ok (kind, args) r) :
    kind.head? = some 0x23 ∧ ∃ content, 0x7D ∉ content ∧ s = content ++ 0x7D :: r := by
  obtain ⟨content, s₁, hread, h⟩ := bind_eq_ok.mp h
  obtain ⟨hs, hnot⟩ := readUntilClose_eq_ok hread
  cases hbreak : breakOn [0x20] (trim content) with
  | none =>
    rw [hbreak] at h
    cases h
    exact ⟨rfl, content, hnot, hs⟩
  | some p =>
    rw [hbreak] at h
    cases h
    exact ⟨rfl, content, hnot, hs⟩

theorem closing_eq_ok {s kind args r : Bytes} (h : closing origin s = .ok (kind, args) r) :
    kind.head? = some 0x2F ∧ ∃ content, 0x7D ∉ content ∧ s = content ++ 0x7D :: r := by
  obtain ⟨content, s₁, hread, h⟩ := bind_eq_ok.mp h
  cases h
  obtain ⟨hs, hnot⟩ := readUntilClose_eq_ok hread
  exact ⟨rfl, content, hnot, hs⟩

theorem kindAtoms_of_head {kind : Bytes} (args : Bytes)
    (h : kind.head? = some 0x23 ∨ kind.head? = some 0x2F) : kindAtoms kind args = [] := by
  unfold kindAtoms
  rw [if_neg, if_neg]
  · rintro rfl
    revert h
    decide
  · rintro rfl
    revert h
    decide

theorem map_some_eq_ok {α : Type} {m : Parser α} {s r : Bytes} {o : Option α}
    (h : (some <$> m) s = .ok o r) : ∃ a, o = some a ∧ m s = .ok a r := by
  obtain ⟨a, _, hm, h⟩ := bind_eq_ok.mp h
  cases h
  exact ⟨a, rfl, hm⟩

/-- A brace is text, or it begins the directive that is read. -/
theorem tryBlock_eq_ok {s r : Bytes} {o : Option (Bytes × Bytes)}
    (h : tryBlock origin s = .ok o r) :
    o = none ∧ r = s ∧ ¬Opens s ∨
      ∃ kind args, o = some (kind, args) ∧ Directive s (kindAtoms kind args) r := by
  unfold tryBlock at h
  have hdrop : ∀ {pat : Bytes}, pat.isPrefixOf s → s = pat ++ s.drop pat.length := by
    intro pat hpat
    obtain ⟨t, ht⟩ := List.isPrefixOf_iff_prefix.mp hpat
    rw [← ht, List.drop_left]
  split at h
  · rename_i hpat
    obtain ⟨⟨kind, args⟩, rfl, hread⟩ := map_some_eq_ok h
    obtain ⟨rfl, path, hnot, rfl, hs⟩ := variableDirective_eq_ok hread
    refine .inr ⟨_, _, rfl, ?_⟩
    rw [hdrop hpat]
    change Directive ([0x7B, 0x21, 0x24] ++ s.drop 3) _ r
    rw [hs, ← List.append_assoc]
    exact .rawVar r hnot
  · split at h
    · rename_i hpat
      obtain ⟨⟨kind, args⟩, rfl, hread⟩ := map_some_eq_ok h
      obtain ⟨rfl, path, hnot, rfl, hs⟩ := variableDirective_eq_ok hread
      refine .inr ⟨_, _, rfl, ?_⟩
      rw [hdrop hpat]
      change Directive ([0x7B, 0x24] ++ s.drop 2) _ r
      rw [hs, ← List.append_assoc]
      exact .var r hnot
    · split at h
      · rename_i hpat
        obtain ⟨⟨kind, args⟩, rfl, hread⟩ := map_some_eq_ok h
        obtain ⟨hkind, content, hnot, hs⟩ := opening_eq_ok hread
        refine .inr ⟨_, _, rfl, ?_⟩
        rw [hdrop hpat, kindAtoms_of_head args (.inl hkind)]
        change Directive ([0x7B, 0x23] ++ s.drop 2) _ r
        rw [hs, ← List.append_assoc]
        exact .opening r hnot
      · split at h
        · rename_i hpat
          obtain ⟨⟨kind, args⟩, rfl, hread⟩ := map_some_eq_ok h
          obtain ⟨hkind, content, hnot, hs⟩ := closing_eq_ok hread
          refine .inr ⟨_, _, rfl, ?_⟩
          rw [hdrop hpat, kindAtoms_of_head args (.inr hkind)]
          change Directive ([0x7B, 0x2F] ++ s.drop 2) _ r
          rw [hs, ← List.append_assoc]
          exact .closing r hnot
        · rename_i h1 h2 h3 h4
          cases h
          rw [List.isPrefixOf_iff_prefix] at h1 h2 h3 h4
          exact .inl ⟨rfl, rfl, by
            rintro (h | h | h | h)
            exacts [h1 h, h2 h, h3 h, h4 h]⟩

theorem eachNames_eq_ok {args s r : Bytes} {names : Bytes × Bytes}
    (h : eachNames origin args s = .ok names r) : r = s := by
  unfold eachNames at h
  cases hbreak : breakOn (ascii " as ") args with
  | some p =>
    rw [hbreak] at h
    cases h
    rfl
  | none =>
    rw [hbreak] at h
    cases h

/-- The kinds at which a list of nodes stops. -/
def IsStop (kind : Bytes) : Prop := kind.head? = some 0x23 ∨ kind.head? = some 0x2F
deriving Decidable

/-- What stands for a directive is what it stands for itself and what is inside it. -/
theorem directive_written {parse : List Bytes → Parser (List Node × Bytes)}
    (hparse : ∀ stops s ns stop r, (∀ k ∈ stops, IsStop k) → parse stops s = .ok (ns, stop) r →
      Written s (atoms ns) r)
    {kind args s r : Bytes} {n : Node} (h : directive origin parse kind args s = .ok n r) :
    ∃ as, Written s as r ∧ nodeAtoms n = kindAtoms kind args ++ as := by
  unfold directive at h
  by_cases hvar : kind = ascii "var"
  · rw [if_pos hvar] at h
    cases h
    exact ⟨[], .done _, by rw [kindAtoms, if_pos hvar]; rfl⟩
  rw [if_neg hvar] at h
  by_cases hraw : kind = ascii "rawvar"
  · rw [if_pos hraw] at h
    cases h
    exact ⟨[], .done _, by rw [kindAtoms, if_neg hvar, if_pos hraw]; rfl⟩
  rw [if_neg hraw] at h
  have hatoms : kindAtoms kind args = [] := by rw [kindAtoms, if_neg hvar, if_neg hraw]
  rw [hatoms]
  by_cases hif : kind = ascii "#if"
  · rw [if_pos hif] at h
    obtain ⟨⟨children, stop⟩, s₁, hchildren, h⟩ := bind_eq_ok.mp h
    have hwritten := hparse _ _ _ _ _ (by decide) hchildren
    dsimp only at h
    by_cases hstop : stop = ascii "#else"
    · rw [if_pos hstop] at h
      obtain ⟨⟨alt, _⟩, s₂, halt, h⟩ := bind_eq_ok.mp h
      cases h
      exact ⟨_, hwritten.append (hparse _ _ _ _ _ (by decide) halt), rfl⟩
    · rw [if_neg hstop] at h
      cases h
      exact ⟨_, hwritten, by rw [nodeAtoms, atoms, List.append_nil]; rfl⟩
  rw [if_neg hif] at h
  by_cases heach : kind = ascii "#each"
  · rw [if_pos heach] at h
    obtain ⟨⟨list, item⟩, s₁, hnames, h⟩ := bind_eq_ok.mp h
    cases eachNames_eq_ok hnames
    obtain ⟨⟨children, stop⟩, s₁, hchildren, h⟩ := bind_eq_ok.mp h
    have hwritten := hparse _ _ _ _ _ (by decide) hchildren
    dsimp only at h
    by_cases hstop : stop = ascii "#empty"
    · rw [if_pos hstop] at h
      obtain ⟨⟨alt, _⟩, s₂, halt, h⟩ := bind_eq_ok.mp h
      cases h
      exact ⟨_, hwritten.append (hparse _ _ _ _ _ (by decide) halt), rfl⟩
    · rw [if_neg hstop] at h
      cases h
      exact ⟨_, hwritten, by rw [nodeAtoms, atoms, List.append_nil]; rfl⟩
  rw [if_neg heach] at h
  by_cases hextends : kind = ascii "#extends"
  · rw [if_pos hextends] at h
    cases h
    exact ⟨[], .done _, rfl⟩
  rw [if_neg hextends] at h
  by_cases hblock : kind = ascii "#block"
  · rw [if_pos hblock] at h
    obtain ⟨⟨children, stop⟩, s₁, hchildren, h⟩ := bind_eq_ok.mp h
    cases h
    exact ⟨_, hparse _ _ _ _ _ (by decide) hchildren, rfl⟩
  rw [if_neg hblock] at h
  by_cases hinclude : kind = ascii "#include"
  · rw [if_pos hinclude] at h
    cases h
    refine ⟨[], .done _, ?_⟩
    unfold includeNode
    split <;> rfl
  rw [if_neg hinclude] at h
  split at h <;> cases h

/-- The loop reads what is written, and what it had read stands first in its nodes. -/
theorem parseLoop_written {fuel : Nat} {stops : List Bytes} {buf s stop r : Bytes}
    {out ns : List Node} (hstops : ∀ k ∈ stops, IsStop k)
    (h : parseLoop origin fuel stops buf out s = .ok (ns, stop) r) :
    ∃ as, Written s as r ∧ atoms ns = atoms out ++ buf.map .byte ++ as := by
  induction fuel generalizing stops buf out s ns stop r with
  | zero => cases h
  | succ fuel ih =>
    rw [parseLoop] at h
    obtain ⟨_, _, hhead, h⟩ := bind_eq_ok.mp h
    cases hhead
    cases s with
    | nil =>
      cases h
      exact ⟨[], .done _, by rw [atoms_flush, List.append_nil]⟩
    | cons c s =>
      -- the byte that is read goes behind the text that is there
      have hbyte : ¬Opens (c :: s) → (∃ as, Written s as r ∧
          atoms ns = atoms out ++ (buf ++ [c]).map .byte ++ as) →
          ∃ as, Written (c :: s) as r ∧ atoms ns = atoms out ++ buf.map .byte ++ as := by
        rintro hc ⟨as, has, hns⟩
        refine ⟨_, .byte hc has, ?_⟩
        rw [hns]
        simp
      dsimp only [List.head?_cons] at h
      split at h
      · rename_i hbrace
        obtain ⟨_, _, hnext, h⟩ := bind_eq_ok.mp h
        cases hnext
        refine hbyte ?_ (ih hstops h)
        rintro (hp | hp | hp | hp) <;> exact hbrace (List.cons_prefix_cons.mp hp).1.symm
      · obtain ⟨o, s₁, htry, h⟩ := bind_eq_ok.mp h
        obtain ⟨rfl, rfl, hopens⟩ | ⟨kind, args, rfl, hdir⟩ := tryBlock_eq_ok htry
        · obtain ⟨_, _, hnext, h⟩ := bind_eq_ok.mp h
          cases hnext
          exact hbyte hopens (ih hstops h)
        · dsimp only at h
          split at h
          · rename_i hstop
            cases h
            refine ⟨_, .directive hdir (.done _), ?_⟩
            rw [atoms_flush, kindAtoms_of_head _ (hstops _ hstop), List.append_nil, List.append_nil]
          · obtain ⟨node, s₂, hnode, h⟩ := bind_eq_ok.mp h
            have hparse : ∀ stops s ns stop r, (∀ k ∈ stops, IsStop k) →
                parseLoop origin fuel stops [] [] s = .ok (ns, stop) r → Written s (atoms ns) r := by
              intro stops s ns stop r hstops hp
              obtain ⟨as, has, hns⟩ := ih hstops hp
              rw [hns]
              exact has
            obtain ⟨as, has, hatoms⟩ := directive_written hparse hnode
            obtain ⟨bs, hbs, hns⟩ := ih hstops h
            refine ⟨_, .directive hdir (has.append hbs), ?_⟩
            rw [hns, atoms_append, atoms_flush, atoms, atoms, hatoms]
            simp

/-- At the outermost level there is nothing to stop at. -/
theorem parseLoop_end {fuel : Nat} {buf s stop r : Bytes} {out ns : List Node}
    (h : parseLoop origin fuel [] buf out s = .ok (ns, stop) r) : stop = [] ∧ r = [] := by
  induction fuel generalizing buf out s with
  | zero => cases h
  | succ fuel ih =>
    rw [parseLoop] at h
    obtain ⟨_, _, hhead, h⟩ := bind_eq_ok.mp h
    cases hhead
    cases s with
    | nil =>
      cases h
      exact ⟨rfl, rfl⟩
    | cons c s =>
      dsimp only [List.head?_cons] at h
      split at h
      · obtain ⟨_, _, hnext, h⟩ := bind_eq_ok.mp h
        exact ih h
      · obtain ⟨o, s₁, htry, h⟩ := bind_eq_ok.mp h
        cases o with
        | none =>
          obtain ⟨_, _, hnext, h⟩ := bind_eq_ok.mp h
          exact ih h
        | some p =>
          dsimp only at h
          rw [if_neg List.not_mem_nil] at h
          obtain ⟨node, s₂, hnode, h⟩ := bind_eq_ok.mp h
          exact ih h

/-- The nodes of a template have the bytes and the variables of its text, in order. -/
theorem parse_written {src stop r : Bytes} {ns : List Node}
    (h : parse origin src = .ok (ns, stop) r) : Written src (atoms ns) [] := by
  obtain ⟨as, has, hns⟩ := parseLoop_written (by simp) h
  obtain ⟨_, rfl⟩ := parseLoop_end h
  rw [hns]
  exact has

/-! ## The parser comes to an end -/

/-- A parser only shortens what is not read. -/
def shrinks : Moves Bytes Error where
  rel s s' := s'.length ≤ s.length
  err _ _ _ := True
  refl _ := Nat.le_refl _
  trans h h' := Nat.le_trans h' h
  absorb _ _ := trivial

theorem readUntilClose_finishes (msg s : Bytes) :
    Finishes shrinks (readUntilClose origin msg) s fun _ _ => True := by
  unfold Finishes
  cases h : readUntilClose origin msg s with
  | ok content r =>
    obtain ⟨rfl, _⟩ := readUntilClose_eq_ok h
    refine ⟨?_, trivial⟩
    change r.length ≤ (content ++ 0x7D :: r).length
    rw [List.length_append, List.length_cons]
    omega
  | error e r => trivial
  | timeout =>
    unfold readUntilClose at h
    cases hbreak : breakOn [0x7D] s <;> rw [hbreak] at h <;> cases h

theorem validateLoop_finishes (path cs s : Bytes) :
    Finishes shrinks (validateLoop path cs) s fun _ _ => True := by
  induction cs with
  | nil => exact Finishes.pure trivial
  | cons c cs ih =>
    rw [validateLoop]
    exact .ite (fun _ => .throw trivial) fun _ => .ite (fun _ => .throw trivial) fun _ => ih

theorem variableDirective_finishes (kind msg s : Bytes) :
    Finishes shrinks (variableDirective origin kind msg) s fun _ _ => True := by
  refine (readUntilClose_finishes msg s).bind fun content s' _ _ => ?_
  exact (validateLoop_finishes _ _ s').bind fun _ _ _ _ => Finishes.pure trivial

theorem opening_finishes (s : Bytes) : Finishes shrinks (opening origin) s fun _ _ => True := by
  refine (readUntilClose_finishes _ s).bind fun content s' _ _ => ?_
  cases breakOn [0x20] (trim content) with
  | none => exact Finishes.pure trivial
  | some p => exact Finishes.pure trivial

theorem closing_finishes (s : Bytes) : Finishes shrinks (closing origin) s fun _ _ => True :=
  (readUntilClose_finishes _ s).bind fun _ _ _ _ => Finishes.pure trivial

/-- A directive has bytes. -/
theorem Directive.length_lt {s r : Bytes} {as : List Atom} (h : Directive s as r) :
    r.length < s.length := by
  cases h <;> simp only [List.length_append, List.length_cons] <;> omega

theorem map_some_finishes {α : Type} {m : Parser α} {s : Bytes}
    (h : Finishes shrinks m s fun _ _ => True) : (some <$> m) s ≠ .timeout := by
  have hmap : Finishes shrinks (some <$> m) s fun _ _ => True :=
    h.bind fun _ _ _ _ => Finishes.pure trivial
  exact hmap.ne_timeout

theorem tryBlock_ne_timeout (s : Bytes) : tryBlock origin s ≠ .timeout := by
  unfold tryBlock
  split
  · exact map_some_finishes (variableDirective_finishes _ _ _)
  split
  · exact map_some_finishes (variableDirective_finishes _ _ _)
  split
  · exact map_some_finishes (opening_finishes _)
  split
  · exact map_some_finishes (closing_finishes _)
  · simp

theorem tryBlock_finishes (s : Bytes) :
    Finishes shrinks (tryBlock origin) s fun o s' =>
      match o with
      | none => s' = s
      | some _ => s'.length < s.length := by
  unfold Finishes
  cases h : tryBlock origin s with
  | ok o r =>
    obtain ⟨rfl, rfl, _⟩ | ⟨kind, args, rfl, hdir⟩ := tryBlock_eq_ok h
    · exact ⟨Nat.le_refl _, rfl⟩
    · exact ⟨Nat.le_of_lt hdir.length_lt, hdir.length_lt⟩
  | error e r => trivial
  | timeout => exact tryBlock_ne_timeout s h

theorem directive_finishes {parse : List Bytes → Parser (List Node × Bytes)} {fuel : Nat}
    (hparse : ∀ stops s, s.length < fuel → Finishes shrinks (parse stops) s fun _ _ => True)
    (kind args : Bytes) {s : Bytes} (hs : s.length < fuel) :
    Finishes shrinks (directive origin parse kind args) s fun _ _ => True := by
  have hrest : ∀ stops s', shrinks.rel s s' → Finishes shrinks (parse stops) s' fun _ _ => True :=
    fun stops s' hle => hparse stops s' (Nat.lt_of_le_of_lt hle hs)
  unfold directive
  refine .ite (fun _ => .pure trivial) fun _ => .ite (fun _ => .pure trivial) fun _ => ?_
  refine .ite (fun _ => ?_) fun _ => .ite (fun _ => ?_) fun _ => ?_
  · refine (hparse _ s hs).bind fun p s' hle _ => .ite (fun _ => ?_) fun _ => .pure trivial
    exact (hrest _ s' hle).bind fun _ _ _ _ => .pure trivial
  · have hnames : Finishes shrinks (eachNames origin args) s fun _ _ => True := by
      unfold eachNames
      cases breakOn (ascii " as ") args with
      | some p => exact .pure trivial
      | none => exact .throw trivial
    refine hnames.bind fun names s' hle _ => (hrest _ s' hle).bind fun p s'' hle' _ => ?_
    refine .ite (fun _ => ?_) fun _ => .pure trivial
    exact (hrest _ s'' (Nat.le_trans hle' hle)).bind fun _ _ _ _ => .pure trivial
  · refine .ite (fun _ => .pure trivial) fun _ => .ite (fun _ => ?_) fun _ => ?_
    · exact (hparse _ s hs).bind fun _ _ _ _ => .pure trivial
    · refine .ite (fun _ => .pure trivial) fun _ => .ite (fun _ => ?_) fun _ => ?_
      · exact .throw trivial
      · exact .throw trivial

/-- Every turn of the loop reads a byte or a directive. -/
theorem parseLoop_finishes {fuel : Nat} (stops : List Bytes) (buf : Bytes) (out : List Node)
    {s : Bytes} (hs : s.length < fuel) :
    Finishes shrinks (parseLoop origin fuel stops buf out) s fun _ _ => True := by
  induction fuel generalizing stops buf out s with
  | zero => exact absurd hs (Nat.not_lt_zero _)
  | succ fuel ih =>
    have hnext : ∀ (s' : Bytes) (c : UInt8) (s'' : Bytes), s' = c :: s'' → s'.length < fuel + 1 →
        ∀ buf out, Finishes shrinks (nextByte >>= fun _ => parseLoop origin fuel stops buf out) s'
          fun _ _ => True := by
      rintro _ c s'' rfl hlen buf out
      refine Finishes.bind (Finishes.modify (Nat.le_succ _) (Q := fun _ s₁ => s₁ = s'') rfl) ?_
      rintro _ _ _ rfl
      exact ih _ _ _ (Nat.lt_of_succ_lt_succ hlen)
    rw [parseLoop]
    refine Finishes.gets_bind ?_
    cases s with
    | nil => exact .pure trivial
    | cons c s =>
      refine .ite (fun _ => hnext _ c s rfl hs _ _) fun _ => ?_
      refine (tryBlock_finishes _).bind fun o s' hle ho => ?_
      cases o with
      | none => exact hnext _ c s ho (ho ▸ hs) _ _
      | some p =>
        refine .ite (fun _ => .pure trivial) fun _ => ?_
        have hlt : s'.length < fuel := Nat.lt_of_lt_of_le ho (Nat.le_of_lt_succ hs)
        refine (directive_finishes (fun stops s => ih stops [] []) _ _ hlt).bind ?_
        exact fun node s'' hle' _ => ih _ _ _ (Nat.lt_of_le_of_lt hle' hlt)

/-- The fuel is enough for every text. -/
theorem parse_ne_timeout (src : Bytes) : parse origin src ≠ .timeout :=
  (parseLoop_finishes [] [] [] (Nat.lt_succ_self _)).ne_timeout

end Parser

/-! ## Parsing a given text -/

section Steps

variable (origin : Bytes)

/-- Text without a brace is text. -/
theorem parseLoop_text (fuel : Nat) (stops : List Bytes) (buf : Bytes) (out : List Node) {t : Bytes}
    (ht : 0x7B ∉ t) (s : Bytes) :
    parseLoop origin (t.length + fuel) stops buf out (t ++ s) =
      parseLoop origin fuel stops (buf ++ t) out s := by
  induction t generalizing buf with
  | nil => rw [List.append_nil, List.length_nil, Nat.zero_add, List.nil_append]
  | cons c t ih =>
    rw [List.mem_cons, not_or] at ht
    have hstep : parseLoop origin (t.length + fuel + 1) stops buf out (c :: (t ++ s)) =
        parseLoop origin (t.length + fuel) stops (buf ++ [c]) out (t ++ s) := by
      rw [parseLoop, bind_apply, gets_apply]
      dsimp only [List.head?_cons]
      rw [if_pos (Ne.symm ht.1)]
      rfl
    rw [List.length_cons, Nat.add_right_comm, List.cons_append, hstep, ih _ ht.2, List.append_assoc,
      List.singleton_append]

theorem parseLoop_node (fuel : Nat) {stops : List Bytes} (buf : Bytes) (out : List Node)
    {s s' s'' kind args : Bytes} {n : Node}
    (h : tryBlock origin (0x7B :: s) = .ok (some (kind, args)) s')
    (hstop : kind ∉ stops)
    (hn : directive origin (fun stops => parseLoop origin fuel stops [] []) kind args s' = .ok n s'') :
    parseLoop origin (fuel + 1) stops buf out (0x7B :: s) =
      parseLoop origin fuel stops [] (flush out buf ++ [n]) s'' := by
  rw [parseLoop, bind_apply, gets_apply]
  dsimp only [List.head?_cons]
  rw [if_neg (not_not_intro rfl), bind_of_ok h]
  dsimp only
  rw [if_neg hstop, bind_of_ok hn]

theorem parseLoop_stop (fuel : Nat) {stops : List Bytes} (buf : Bytes) (out : List Node)
    {s s' kind args : Bytes} (h : tryBlock origin (0x7B :: s) = .ok (some (kind, args)) s')
    (hstop : kind ∈ stops) :
    parseLoop origin (fuel + 1) stops buf out (0x7B :: s) = .ok (flush out buf, kind) s' := by
  rw [parseLoop, bind_apply, gets_apply]
  dsimp only [List.head?_cons]
  rw [if_neg (not_not_intro rfl), bind_of_ok h]
  dsimp only
  rw [if_pos hstop]
  rfl

theorem directive_block {parse : List Bytes → Parser (List Node × Bytes)} {args s s' stop : Bytes}
    {ns : List Node} (h : parse [ascii "/block"] s = .ok (ns, stop) s') :
    directive origin parse (ascii "#block") args s = .ok (.block (unquote args) ns) s' := by
  rw [directive, if_neg (by decide), if_neg (by decide), if_neg (by decide), if_neg (by decide),
    if_neg (by decide), if_pos rfl, bind_of_ok h]
  rfl

theorem parseLoop_nil (fuel : Nat) (stops : List Bytes) (buf : Bytes) (out : List Node) :
    parseLoop origin (fuel + 1) stops buf out [] = .ok (flush out buf, []) [] := rfl

end Steps

end Template

end Look
