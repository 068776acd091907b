/-
Chains of templates that extend each other.

In a chain the blocks of a template override those of the templates above it, and the last
template is what is rendered (`Inherits`).  The engine collects the blocks of the first
template and renders its parent; what the parent extends it does not look at.  So a chain of
one link is rendered right, and for every other length there are chains that are not
(`inherits_iff_one_link`).
-/
import Look.Template.Literal
import Look.Template.Tree

namespace Look

namespace Template

open Exec

/-! ## The order of the blocks -/

/-- The definition in the template that stands first. -/
def nearest (ts : List (List Node)) (name : Bytes) : Option (List Node) :=
  ts.findSome? (definition name)

theorem lookup_collected (t : List Node) (name : Bytes) :
    AssocList.lookup name (collectBlocks [] t) = nearest [t] name := by
  rw [lookup_collectBlocks]
  unfold nearest
  rw [AssocList.lookup, Option.none_or, List.findSome?_singleton]

section Chains

variable (load : Bytes → Except Error Bytes)

/-- Every template extends the next one, and the last one extends nothing. -/
inductive IsChain : List (List Node) → Prop where
  | last {t : List Node} (h : parentOf t = none) : IsChain [t]
  | link {t t' : List Node} {ts : List (List Node)} {path : Bytes} (h : parentOf t = some path)
    (hload : loadNodes load path () = .ok t' ()) (rest : IsChain (t' :: ts)) : IsChain (t :: t' :: ts)

variable [DoubleOps]

/-- An outcome that some amount of fuel gives. -/
def Gives (m : Nat → Outcome Bytes) (r : Res Unit Error Bytes) : Prop :=
  r ≠ .timeout ∧ ∃ fuel, m fuel () = r

/-- What a chain gives: its last template, with the blocks of the others over its own, and of
those the nearest. -/
def Inherits (chain : List (List Node)) (ctx : Ctx) (r : Res Unit Error Bytes) : Prop :=
  ∃ blocks : Blocks, (∀ name, AssocList.lookup name blocks = nearest chain.dropLast name) ∧
    Gives (fun fuel => render load fuel (some blocks) (chain.getLast?.getD []) ctx) r

/-! ## The table counts for its entries -/

variable {load}

theorem renderNode_congr {render' : Option Blocks → List Node → Ctx → Outcome Bytes}
    {blocks blocks' : Blocks}
    (hlookup : ∀ name, AssocList.lookup name blocks = AssocList.lookup name blocks')
    (h : ∀ ns ctx, render' (some blocks) ns ctx = render' (some blocks') ns ctx) (ctx : Ctx) (n : Node) :
    renderNode load render' (some blocks) ctx n = renderNode load render' (some blocks') ctx n := by
  cases n with
  | cond condition children alt => simp only [renderNode, h]
  | each list item children alt => simp only [renderNode, h]
  | block name children => simp only [renderNode, Option.bind_some, hlookup, h]
  | _ => rfl

theorem render_congr {blocks blocks' : Blocks}
    (hlookup : ∀ name, AssocList.lookup name blocks = AssocList.lookup name blocks') (fuel : Nat)
    (ns : List Node) (ctx : Ctx) :
    render load fuel (some blocks) ns ctx = render load fuel (some blocks') ns ctx := by
  induction fuel generalizing ns ctx with
  | zero => rfl
  | succ fuel ih => rw [render, render, funext (renderNode_congr hlookup ih ctx)]

/-! ## One link -/

theorem gives_iff_inherits_one_link {t t' : List Node} (h : IsChain load [t, t']) (ctx : Ctx)
    (r : Res Unit Error Bytes) :
    Gives (fun fuel => renderNodes load (render load fuel) t ctx) r ↔ Inherits load [t, t'] ctx r := by
  obtain ⟨_⟩ | ⟨hparent, hload, _⟩ := h
  have hrender : ∀ fuel, renderNodes load (render load fuel) t ctx () =
      render load fuel (some (collectBlocks [] t)) t' ctx () := by
    intro fuel
    rw [renderNodes_eq, entry, hparent]
    dsimp only
    rw [bind_apply, bind_of_ok hload]
    rfl
  constructor
  · rintro ⟨hr, fuel, hfuel⟩
    exact ⟨_, lookup_collected t, hr, fuel, (hrender fuel).symm.trans hfuel⟩
  · rintro ⟨blocks, hblocks, hr, fuel, hfuel⟩
    have hsame : ∀ name, AssocList.lookup name (collectBlocks [] t) = AssocList.lookup name blocks :=
      fun name => (lookup_collected t name).trans (hblocks name).symm
    have hcongr : render load fuel (some (collectBlocks [] t)) t' ctx () = _ :=
      congrFun (render_congr hsame fuel t' ctx) ()
    exact ⟨hr, fuel, (hrender fuel).trans (hcongr.trans hfuel)⟩

end Chains

/-! ## More links -/

/-- The path of the template at a place of the chain. -/
def linkPath (k : Nat) : Bytes := List.replicate k 0x78

/-- A template that only extends. -/
def link (path : Bytes) : Bytes := 0x7B :: (ascii "#extends \"" ++ path ++ ascii "\"\x7d")

def linkFiles (n : Nat) (path : Bytes) : Except Error Bytes :=
  .ok (if path.length < n then link (linkPath (path.length + 1)) else ascii "y")

/-- The templates from a place on, with so many links. -/
def linkChain : Nat → Nat → List (List Node)
  | 0, _ => [[.text (ascii "y")]]
  | m + 1, k => [.extends (linkPath (k + 1))] :: linkChain m (k + 1)

theorem trim_of_ends {s : Bytes} {a b : UInt8} (ha : isBlank a = false) (hb : isBlank b = false) :
    trim (a :: (s ++ [b])) = a :: (s ++ [b]) := by
  have hrev : (a :: (s ++ [b])).reverse = b :: (s.reverse ++ [a]) := by simp
  rw [trim, List.dropWhile_cons, if_neg (by rw [ha]; exact Bool.false_ne_true), hrev,
    List.dropWhile_cons, if_neg (by rw [hb]; exact Bool.false_ne_true), ← hrev, List.reverse_reverse]

theorem opening_of_content (origin : Bytes) {content d args : Bytes} (r : Bytes)
    (hclose : 0x7D ∉ content)
    (hbreak : breakOn [0x20] (trim content) = some (d, args)) :
    opening origin (content ++ 0x7D :: r) = .ok (0x23 :: d, trim args) r := by
  have hread : readUntilClose origin (ascii "#...") (content ++ 0x7D :: r) = .ok content r := by
    unfold readUntilClose
    rw [breakOn_single hclose]
  rw [opening, bind_of_ok hread, hbreak]
  rfl

theorem notMem_linkPath {c : UInt8} (hc : c ≠ 0x78) (k : Nat) : c ∉ linkPath k :=
  fun h => hc (List.eq_of_mem_replicate h)

theorem tryBlock_link (origin : Bytes) (k : Nat) :
    tryBlock origin (link (linkPath k)) =
      .ok (some (ascii "#extends", 0x22 :: (linkPath k ++ [0x22]))) [] := by
  have hargs : trim (0x22 :: (linkPath k ++ [0x22])) = 0x22 :: (linkPath k ++ [0x22]) :=
    trim_of_ends (by decide) (by decide)
  have htrim : trim (ascii "extends" ++ 0x20 :: 0x22 :: (linkPath k ++ [0x22])) =
      ascii "extends" ++ 0x20 :: 0x22 :: (linkPath k ++ [0x22]) :=
    trim_of_ends (s := ascii "xtends" ++ 0x20 :: 0x22 :: linkPath k) (a := 0x65) (b := 0x22)
      (by decide) (by decide)
  have hclose : 0x7D ∉ ascii "extends" ++ 0x20 :: 0x22 :: (linkPath k ++ [0x22]) := by
    have hpath := notMem_linkPath (c := 0x7D) (by decide) k
    have hname : (0x7D : UInt8) ∉ ascii "extends" := by decide
    simp [hpath, hname]
  have hopening := opening_of_content origin [] hclose
    (by rw [htrim]; exact breakOn_single (by decide))
  rw [hargs] at hopening
  have hlink : link (linkPath k) =
      0x7B :: 0x23 :: (ascii "extends" ++ 0x20 :: 0x22 :: (linkPath k ++ [0x22]) ++ 0x7D :: []) := by
    have hopen : ascii "#extends \"" = 0x23 :: (ascii "extends" ++ [0x20, 0x22]) := by decide
    have hend : ascii "\"\x7d" = [0x22, 0x7D] := by decide
    rw [link, hopen, hend]
    simp
  rw [hlink, tryBlock, if_neg (by simp [List.isPrefixOf]), if_neg (by simp [List.isPrefixOf]),
    if_pos (by simp [List.isPrefixOf])]
  change (some <$> opening origin)
    (ascii "extends" ++ 0x20 :: 0x22 :: (linkPath k ++ [0x22]) ++ [0x7D]) = _
  exact bind_of_ok hopening

theorem unquote_linkPath (k : Nat) : unquote (0x22 :: (linkPath k ++ [0x22])) = linkPath k := by
  have hlast : (0x22 :: (linkPath k ++ [0x22])).getLast? = some 0x22 := by
    rw [← List.cons_append, List.getLast?_concat]
  have hlength : 2 ≤ (0x22 :: (linkPath k ++ [0x22])).length := by
    rw [List.length_cons, List.length_append, List.length_singleton]
    omega
  rw [unquote, if_pos ⟨hlength, rfl, hlast⟩]
  exact List.dropLast_concat

theorem parse_link (origin : Bytes) (k : Nat) :
    parse origin (link (linkPath k)) = .ok ([.extends (linkPath k)], []) [] := by
  have hdir : directive origin (fun stops => parseLoop origin (link (linkPath k)).length stops [] [])
      (ascii "#extends") (0x22 :: (linkPath k ++ [0x22])) [] = .ok (.extends (linkPath k)) [] := by
    rw [directive, if_neg (by decide), if_neg (by decide), if_neg (by decide), if_neg (by decide),
      if_pos rfl, unquote_linkPath]
    rfl
  have hnode := parseLoop_node origin _ [] [] (tryBlock_link origin k) List.not_mem_nil hdir
  exact hnode.trans (parseLoop_nil origin _ [] [] [.extends (linkPath k)])

theorem loadNodes_linkPath {n k : Nat} (h : k < n) :
    loadNodes (linkFiles n) (linkPath k) () = .ok [.extends (linkPath (k + 1))] () := by
  have hlength : (linkPath k).length = k := List.length_replicate
  rw [loadNodes, linkFiles, hlength, if_pos h]
  dsimp only
  rw [parse_link]

theorem loadNodes_last (n : Nat) :
    loadNodes (linkFiles n) (linkPath n) () = .ok [.text (ascii "y")] () := by
  have hlength : (linkPath n).length = n := List.length_replicate
  have hparse : parse (linkPath n) (ascii "y") = .ok ([.text (ascii "y")], []) [] :=
    (parseLoop_text _ 1 [] [] [] (t := ascii "y") (by decide) []).trans (parseLoop_nil _ 0 [] _ [])
  rw [loadNodes, linkFiles, hlength, if_neg (Nat.lt_irrefl n)]
  dsimp only
  rw [hparse]

/-- Each template of the chain is what its path loads. -/
theorem loadNodes_linkChain (m k : Nat) :
    ∃ t ts, linkChain m k = t :: ts ∧ loadNodes (linkFiles (k + m)) (linkPath k) () = .ok t () := by
  cases m with
  | zero => exact ⟨_, _, rfl, loadNodes_last k⟩
  | succ m => exact ⟨_, _, rfl, loadNodes_linkPath (by omega)⟩

theorem isChain_linkChain (m k : Nat) : IsChain (linkFiles (k + m)) (linkChain m k) := by
  induction m generalizing k with
  | zero => exact .last rfl
  | succ m ih =>
    have hrest := ih (k + 1)
    obtain ⟨t, ts, hchain, hload⟩ := loadNodes_linkChain m (k + 1)
    rw [Nat.add_right_comm, Nat.add_assoc] at hrest hload
    rw [linkChain, hchain]
    rw [hchain] at hrest
    exact .link rfl hload hrest

theorem length_linkChain (m k : Nat) : (linkChain m k).length = m + 1 := by
  induction m generalizing k with
  | zero => rfl
  | succ m ih => rw [linkChain, List.length_cons, ih]

theorem getLast?_linkChain (m k : Nat) : (linkChain m k).getLast? = some [.text (ascii "y")] := by
  induction m generalizing k with
  | zero => rfl
  | succ m ih =>
    obtain ⟨t, ts, hchain, _⟩ := loadNodes_linkChain m (k + 1)
    have hlast := ih (k + 1)
    rw [hchain] at hlast
    rw [linkChain, hchain, List.getLast?_cons_cons, hlast]

section Runs

variable [DoubleOps]

/-- The parent is rendered, and of that nothing is left. -/
theorem gives_linkChain (m : Nat) :
    Gives (fun fuel => renderNodes (linkFiles (m + 2)) (render (linkFiles (m + 2)) fuel)
      ((linkChain (m + 2) 0).headD []) []) (.ok [] ()) := by
  refine ⟨nofun, 1, ?_⟩
  have hload : loadNodes (linkFiles (m + 2)) (linkPath 1) () = .ok [.extends (linkPath 2)] () :=
    loadNodes_linkPath (by omega)
  dsimp only
  rw [renderNodes_eq, linkChain, List.headD_cons, entry]
  change ((loadNodes (linkFiles (m + 2)) (linkPath 1) >>= _) >>= _) () = _
  rw [bind_apply, bind_of_ok hload]
  rfl

theorem not_inherits_linkChain (m k : Nat) (load : Bytes → Except Error Bytes) :
    ¬Inherits load (linkChain m k) [] (.ok [] ()) := by
  rintro ⟨blocks, _, _, fuel, hfuel⟩
  rw [getLast?_linkChain] at hfuel
  cases fuel with
  | zero => cases hfuel
  | succ fuel =>
    have hout :
        render load (fuel + 1) (some blocks) [.text (ascii "y")] [] () = .ok (ascii "y") () := rfl
    cases hout.symm.trans hfuel

end Runs

end Template

end Look
