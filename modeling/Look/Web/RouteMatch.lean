/-
When the two engines read a pattern in the same way.

A pattern is plain when every segment either has no opening brace or is a name in braces.
On a plain pattern the regular expression of the interpreter and the segments of the VM
give the same parameters for a path that has its empty segments where the pattern has
them.  The VM does not look at empty segments, so it takes other paths too; and a pattern
that is not plain has other parameters in one engine than in the other.
-/
import Look.Web.Routes

namespace Look

namespace Route

open Http (Bytes)

def PlainSegment (seg : Bytes) : Prop :=
  lbrace ∉ seg ∨ ∃ name, name ≠ [] ∧ rbrace ∉ name ∧ seg = lbrace :: (name ++ [rbrace])

def Plain (pattern : Bytes) : Prop := ∀ seg ∈ pattern.splitOn slash, PlainSegment seg

/-- The pattern and the path have their empty segments in the same places. -/
def SameSlashes (pattern path : Bytes) : Prop :=
  (pattern.splitOn slash).map List.isEmpty = (path.splitOn slash).map List.isEmpty

instance (pattern path : Bytes) : Decidable (SameSlashes pattern path) :=
  inferInstanceAs (Decidable (_ = _))

/-! ## Parsing -/

theorem paramName_of_notMem {seg : Bytes} (h : lbrace ∉ seg) : paramName seg = none := by
  refine if_neg ?_
  rintro ⟨-, hhead, -⟩
  exact h (List.mem_of_mem_head? hhead)

theorem paramName_braces {name : Bytes} (h : name ≠ []) :
    paramName (lbrace :: (name ++ [rbrace])) = some name := by
  have hpos : 0 < name.length := List.length_pos_of_ne_nil h
  rw [paramName, if_pos]
  · simp
  · refine ⟨?_, rfl, ?_⟩
    · simp only [List.length_cons, List.length_append, List.length_nil]
      omega
    · rw [← List.cons_append, List.getLast?_append]
      rfl

/-- What a parameter of the VM looks like. -/
theorem eq_of_paramName {seg name : Bytes} (h : paramName seg = some name) :
    name ≠ [] ∧ seg = lbrace :: (name ++ [rbrace]) := by
  rw [paramName] at h
  split at h
  · rename_i hseg
    obtain ⟨hlen, hhead, hlast⟩ := hseg
    obtain ⟨rest, rfl⟩ : ∃ rest, seg = lbrace :: rest := by
      cases seg with
      | nil => cases hhead
      | cons b rest => exact ⟨rest, by rw [Option.some.inj hhead]⟩
    obtain ⟨init, rfl⟩ : ∃ init, rest = init ++ [rbrace] := by
      rcases List.eq_nil_or_concat rest with rfl | ⟨init, b, rfl⟩
      · simp at hlen
      · rw [List.concat_eq_append, ← List.cons_append, List.getLast?_append] at hlast
        have hb : b = rbrace := Option.some.inj hlast
        exact ⟨init, by rw [List.concat_eq_append, hb]⟩
    have hname : init = name := by simpa using h
    subst hname
    refine ⟨?_, rfl⟩
    rintro rfl
    simp at hlen
  · cases h

/-- The tokens of a plain segment. -/
def segTokens (seg : Bytes) : List Token :=
  match paramName seg with
  | some name => [.param name]
  | none => seg.map .lit

/-- The tokens of the segments behind the first one. -/
def tailTokens (segs : List Bytes) : List Token := segs.flatMap fun seg => .lit slash :: segTokens seg

theorem parsePattern_append {a b : Bytes} {tokens : List Token} {st : Option Bytes}
    (h : parsePattern st a = some tokens) :
    parsePattern st (a ++ b) = (parsePattern none b).map (tokens ++ ·) := by
  induction a generalizing st tokens with
  | nil =>
    cases st with
    | none =>
      cases h
      exact Option.map_id'.symm
    | some name => cases h
  | cons c a ih =>
    cases st with
    | none =>
      rw [parsePattern] at h
      rw [List.cons_append, parsePattern]
      split at h
      · rename_i hc
        rw [if_pos hc]
        exact ih h
      · rename_i hc
        obtain ⟨tokens', hparse, rfl⟩ := Option.map_eq_some_iff.mp h
        rw [if_neg hc, ih hparse, Option.map_map]
        rfl
    | some name =>
      rw [parsePattern] at h
      rw [List.cons_append, parsePattern]
      split at h
      · rename_i hc
        obtain ⟨tokens', hparse, rfl⟩ := Option.map_eq_some_iff.mp h
        rw [if_pos hc, ih hparse, Option.map_map]
        rfl
      · rename_i hc
        rw [if_neg hc]
        exact ih h

theorem parsePattern_slash (rest : Bytes) :
    parsePattern none (slash :: rest) = (parsePattern none rest).map (.lit slash :: ·) := rfl

theorem parsePattern_lits {seg : Bytes} (h : lbrace ∉ seg) :
    parsePattern none seg = some (seg.map .lit) := by
  induction seg with
  | nil => rfl
  | cons b seg ih =>
    rw [List.mem_cons, not_or] at h
    rw [parsePattern, if_neg (Ne.symm h.1), ih h.2]
    rfl

theorem parsePattern_name {acc name : Bytes} (h : rbrace ∉ name) :
    parsePattern (some acc) (name ++ [rbrace]) = some [.param (acc ++ name)] := by
  induction name generalizing acc with
  | nil =>
    rw [List.append_nil]
    rfl
  | cons b name ih =>
    rw [List.mem_cons, not_or] at h
    rw [List.cons_append, parsePattern, if_neg (Ne.symm h.1), ih h.2, List.append_assoc,
      List.singleton_append]

theorem parsePattern_segment {seg : Bytes} (h : PlainSegment seg) :
    parsePattern none seg = some (segTokens seg) := by
  rcases h with h | ⟨name, hne, hname, rfl⟩
  · rw [segTokens, paramName_of_notMem h, parsePattern_lits h]
  · rw [segTokens, paramName_braces hne, parsePattern, if_pos rfl, parsePattern_name hname,
      List.nil_append]

theorem parsePattern_tail {segs : List Bytes} (h : ∀ seg ∈ segs, PlainSegment seg) :
    parsePattern none (segs.flatMap (slash :: ·)) = some (tailTokens segs) := by
  induction segs with
  | nil => rfl
  | cons seg segs ih =>
    have hseg := parsePattern_segment (h seg List.mem_cons_self)
    have hsegs := ih fun s hs => h s (List.mem_cons_of_mem _ hs)
    rw [List.flatMap_cons, List.cons_append, parsePattern_slash, parsePattern_append hseg, hsegs]
    rfl

/-- The tokens of a plain pattern, segment by segment. -/
theorem parsePattern_plain {seg : Bytes} {segs : List Bytes} (hseg : PlainSegment seg)
    (hsegs : ∀ s ∈ segs, PlainSegment s) :
    parsePattern none (seg ++ segs.flatMap (slash :: ·)) = some (segTokens seg ++ tailTokens segs) := by
  rw [parsePattern_append (parsePattern_segment hseg), parsePattern_tail hsegs]
  rfl

@[simp] theorem paramNames_append (a b : List Token) :
    paramNames (a ++ b) = paramNames a ++ paramNames b := List.filterMap_append ..

@[simp] theorem paramNames_lit (b : UInt8) (a : List Token) :
    paramNames (.lit b :: a) = paramNames a := rfl

@[simp] theorem paramNames_param (name : Bytes) (a : List Token) :
    paramNames (.param name :: a) = name :: paramNames a := rfl

theorem paramNames_lits (s : Bytes) : paramNames (s.map .lit) = [] := by
  induction s with
  | nil => rfl
  | cons b s ih => rw [List.map_cons, paramNames_lit, ih]

theorem paramNames_segTokens (seg : Bytes) :
    paramNames (segTokens seg) = (paramName seg).toList := by
  rw [segTokens]
  cases paramName seg with
  | none => exact paramNames_lits seg
  | some name => rfl

/-! ## Matching -/

/-- What follows a segment: nothing in the pattern and in the path, or a `/` in both. -/
def Boundary (tokens : List Token) (rest : Bytes) : Prop :=
  (tokens = [] ∧ rest = []) ∨ ∃ t r, tokens = .lit slash :: t ∧ rest = slash :: r

section Boundary

variable {tokens : List Token} {rest : Bytes}

/-- Nothing matches what follows a segment before the segment of the path has ended. -/
theorem Boundary.early (h : Boundary tokens rest) {b : UInt8} (hb : b ≠ slash) (s : Bytes) :
    regexMatch tokens (b :: s) = none := by
  rcases h with ⟨rfl, -⟩ | ⟨t, r, rfl, -⟩
  · rfl
  · exact if_neg (Ne.symm hb)

theorem Boundary.late (h : Boundary tokens rest) {b : UInt8} (hb : b ≠ slash) (t : List Token) :
    regexMatch (.lit b :: t) rest = none := by
  rcases h with ⟨-, rfl⟩ | ⟨t', r, -, rfl⟩
  · rfl
  · exact if_neg hb

theorem Boundary.noParam (h : Boundary tokens rest) {α : Type} (next : Bytes → Option α) :
    matchParam next rest = none := by
  rcases h with ⟨-, rfl⟩ | ⟨t, r, -, rfl⟩
  · rfl
  · exact if_pos rfl

theorem regexMatch_lits (h : Boundary tokens rest) {seg v : Bytes} (hseg : slash ∉ seg)
    (hv : slash ∉ v) :
    regexMatch (seg.map .lit ++ tokens) (v ++ rest) =
      if seg = v then regexMatch tokens rest else none := by
  induction seg generalizing v with
  | nil =>
    cases v with
    | nil => rfl
    | cons b v =>
      rw [List.mem_cons, not_or] at hv
      exact h.early (Ne.symm hv.1) _
  | cons b seg ih =>
    rw [List.mem_cons, not_or] at hseg
    cases v with
    | nil => exact h.late (Ne.symm hseg.1) _
    | cons c v =>
      rw [List.mem_cons, not_or] at hv
      rw [List.map_cons, List.cons_append, List.cons_append, regexMatch, ih hseg.2 hv.2]
      by_cases hbc : b = c
      · subst hbc
        rw [if_pos rfl]
        simp only [List.cons.injEq, true_and]
      · rw [if_neg hbc, if_neg fun heq => hbc (List.cons.inj heq).1]

theorem matchParam_segment (h : Boundary tokens rest) {v : Bytes} (hne : v ≠ [])
    (hv : slash ∉ v) :
    matchParam (regexMatch tokens) (v ++ rest) = (regexMatch tokens rest).map fun a => (v, a) := by
  induction v with
  | nil => exact absurd rfl hne
  | cons b v ih =>
    rw [List.mem_cons, not_or] at hv
    rw [List.cons_append, matchParam, if_neg (Ne.symm hv.1)]
    cases v with
    | nil => rw [List.nil_append, h.noParam]
    | cons c v =>
      rw [ih (List.cons_ne_nil c v) hv.2]
      cases hmatch : regexMatch tokens rest with
      | some a => rfl
      | none =>
        -- The group has taken the whole segment, and gives some of it back in vain.
        have hc : c ≠ slash := fun hc => hv.2 (List.mem_cons.mpr (Or.inl hc.symm))
        rw [List.cons_append, h.early hc]
        rfl

/-- A plain segment takes one segment of the path. -/
theorem regexMatch_segment (h : Boundary tokens rest) {seg v : Bytes} (hseg : slash ∉ seg)
    (hv : slash ∉ v) (hempty : seg.isEmpty = v.isEmpty) :
    regexMatch (segTokens seg ++ tokens) (v ++ rest) =
      match paramName seg with
      | some _ => (regexMatch tokens rest).map (v :: ·)
      | none => if seg = v then regexMatch tokens rest else none := by
  rw [segTokens]
  cases hname : paramName seg with
  | none => exact regexMatch_lits h hseg hv
  | some name =>
    have hne : v ≠ [] := by
      rintro rfl
      rw [(eq_of_paramName hname).2] at hempty
      cases hempty
    rw [List.singleton_append, regexMatch, matchParam_segment h hne hv, Option.map_map]
    rfl

end Boundary

theorem boundary_tail {ps rs : List Bytes} (h : ps.map List.isEmpty = rs.map List.isEmpty) :
    Boundary (tailTokens ps) (rs.flatMap (slash :: ·)) := by
  cases ps with
  | nil =>
    rw [List.map_nil, eq_comm, List.map_eq_nil_iff] at h
    exact Or.inl ⟨rfl, by rw [h]; rfl⟩
  | cons p ps =>
    cases rs with
    | nil => cases h
    | cons r rs => exact Or.inr ⟨_, _, rfl, rfl⟩

/-- The segments that the VM looks at. -/
def nonempty (segs : List Bytes) : List Bytes := segs.filter fun seg => !seg.isEmpty

theorem matchSegments_cons {p r : Bytes} (hempty : p.isEmpty = r.isEmpty) (ps rs : List Bytes) :
    matchSegments (nonempty (p :: ps)) (nonempty (r :: rs)) =
      match paramName p with
      | some name => (matchSegments (nonempty ps) (nonempty rs)).map ((name, urlDecode r) :: ·)
      | none => if p = r then matchSegments (nonempty ps) (nonempty rs) else none := by
  cases p with
  | nil =>
    cases r with
    | nil => rfl
    | cons c r => cases hempty
  | cons b p =>
    cases r with
    | nil => cases hempty
    | cons c r => rfl

/-- The names of the parameters with the texts that their groups have matched. -/
def named (tokens : List Token) (groups : List Bytes) : Params :=
  (paramNames tokens).zip (groups.map urlDecode)

theorem named_segment (seg : Bytes) (tokens : List Token) (groups : List Bytes) :
    named (segTokens seg ++ tokens) groups =
      match paramName seg with
      | some name => (name :: paramNames tokens).zip (groups.map urlDecode)
      | none => named tokens groups := by
  rw [named, paramNames_append, paramNames_segTokens]
  cases paramName seg with
  | none => rfl
  | some name => rfl

/-- One segment more, in both engines. -/
theorem match_segment {tokens : List Token} {rest : Bytes} {p r : Bytes} {ps rs : List Bytes}
    (h : Boundary tokens rest) (hp : slash ∉ p) (hr : slash ∉ r)
    (hempty : p.isEmpty = r.isEmpty)
    (hrest : matchSegments (nonempty ps) (nonempty rs) =
      (regexMatch tokens rest).map (named tokens)) :
    matchSegments (nonempty (p :: ps)) (nonempty (r :: rs)) =
      (regexMatch (segTokens p ++ tokens) (r ++ rest)).map (named (segTokens p ++ tokens)) := by
  rw [matchSegments_cons hempty, regexMatch_segment h hp hr hempty, hrest]
  have hnamed := fun groups => named_segment p tokens groups
  cases hname : paramName p with
  | some name =>
    rw [hname] at hnamed
    simp only [Option.map_map]
    refine congrArg (fun f => Option.map f _) (funext fun groups => ?_)
    exact (hnamed (r :: groups)).symm
  | none =>
    rw [hname] at hnamed
    by_cases hpr : p = r
    · simp only [if_pos hpr]
      exact congrArg (fun f => Option.map f _) (funext fun groups => (hnamed groups).symm)
    · simp only [if_neg hpr, Option.map_none]

theorem match_tail {ps rs : List Bytes} (hps : ∀ p ∈ ps, slash ∉ p) (hrs : ∀ r ∈ rs, slash ∉ r)
    (h : ps.map List.isEmpty = rs.map List.isEmpty) :
    matchSegments (nonempty ps) (nonempty rs) =
      (regexMatch (tailTokens ps) (rs.flatMap (slash :: ·))).map (named (tailTokens ps)) := by
  induction ps generalizing rs with
  | nil =>
    rw [List.map_nil, eq_comm, List.map_eq_nil_iff] at h
    subst h
    rfl
  | cons p ps ih =>
    cases rs with
    | nil => cases h
    | cons r rs =>
      rw [List.map_cons, List.map_cons, List.cons.injEq] at h
      have hrest := ih (fun q hq => hps q (List.mem_cons_of_mem _ hq))
        (fun q hq => hrs q (List.mem_cons_of_mem _ hq)) h.2
      exact match_segment (boundary_tail h.2) (hps p List.mem_cons_self)
        (hrs r List.mem_cons_self) h.1 hrest

/-- On a plain pattern the engines give the same parameters for a path with the same empty
segments. -/
theorem routeMatch_eq {pattern path : Bytes} {tokens : List Token} (hplain : Plain pattern)
    (hslash : SameSlashes pattern path) (hparse : parsePattern none pattern = some tokens) :
    routeMatch pattern path = (regexMatch tokens path).map (named tokens) := by
  obtain ⟨p, ps, hsplit, hp, hps, heq⟩ := exists_splitOn slash pattern
  obtain ⟨r, rs, hsplit', hr, hrs, heq'⟩ := exists_splitOn slash path
  rw [Plain, hsplit] at hplain
  rw [SameSlashes, hsplit, hsplit', List.map_cons, List.map_cons, List.cons.injEq] at hslash
  have htokens := parsePattern_plain (hplain p List.mem_cons_self)
    fun s hs => hplain s (List.mem_cons_of_mem _ hs)
  rw [← heq, hparse, Option.some.injEq] at htokens
  rw [routeMatch, split, split, hsplit, hsplit', htokens]
  rw [heq']
  exact match_segment (boundary_tail hslash.2) hp hr hslash.1 (match_tail hps hrs hslash.2)

/-! ## The texts of a pattern -/

/-- The texts of a pattern: for every parameter one or more bytes other than `/`. -/
inductive Instance : List Token → Bytes → Prop where
  | nil : Instance [] []
  | lit {b : UInt8} {tokens : List Token} {s : Bytes} (h : Instance tokens s) :
      Instance (.lit b :: tokens) (b :: s)
  | param {name v : Bytes} {tokens : List Token} {s : Bytes} (hne : v ≠ []) (hv : slash ∉ v)
      (h : Instance tokens s) : Instance (.param name :: tokens) (v ++ s)

theorem matchParam_eq_some {α : Type} {next : Bytes → Option α} {s v : Bytes} {a : α}
    (h : matchParam next s = some (v, a)) :
    v ≠ [] ∧ slash ∉ v ∧ ∃ rest, s = v ++ rest ∧ next rest = some a := by
  induction s generalizing v with
  | nil => cases h
  | cons b s ih =>
    rw [matchParam] at h
    split at h
    · cases h
    · rename_i hb
      split at h
      · rename_i v' a' hmatch
        cases h
        obtain ⟨-, hv, rest, rfl, hnext⟩ := ih hmatch
        refine ⟨List.cons_ne_nil _ _, ?_, rest, rfl, hnext⟩
        exact fun hmem => (List.mem_cons.mp hmem).elim (fun heq => hb heq.symm) hv
      · obtain ⟨a', hnext, heq⟩ := Option.map_eq_some_iff.mp h
        cases heq
        refine ⟨List.cons_ne_nil _ _, ?_, s, rfl, hnext⟩
        exact fun hmem => hb (List.mem_singleton.mp hmem).symm

theorem matchParam_isSome {α : Type} {next : Bytes → Option α} {v rest : Bytes} (hne : v ≠ [])
    (hv : slash ∉ v) (h : (next rest).isSome) : (matchParam next (v ++ rest)).isSome := by
  induction v with
  | nil => exact absurd rfl hne
  | cons b v ih =>
    rw [List.mem_cons, not_or] at hv
    rw [List.cons_append, matchParam, if_neg (Ne.symm hv.1)]
    split
    · rfl
    · rename_i hnone
      cases v with
      | nil => simpa using h
      | cons c v =>
        have hsome := ih (List.cons_ne_nil c v) hv.2
        rw [hnone] at hsome
        cases hsome

theorem Instance.of_match {tokens : List Token} {s : Bytes} {groups : List Bytes}
    (h : regexMatch tokens s = some groups) :
    Instance tokens s ∧ groups.length = (paramNames tokens).length := by
  induction tokens generalizing s groups with
  | nil =>
    cases s with
    | nil =>
      cases h
      exact ⟨.nil, rfl⟩
    | cons b s => cases h
  | cons t tokens ih =>
    cases t with
    | lit b =>
      cases s with
      | nil => cases h
      | cons c s =>
        rw [regexMatch] at h
        split at h
        · rename_i hbc
          subst hbc
          exact ⟨.lit (ih h).1, (ih h).2⟩
        · cases h
    | param name =>
      obtain ⟨⟨v, vs⟩, hparam, rfl⟩ := Option.map_eq_some_iff.mp h
      obtain ⟨hne, hv, rest, rfl, hnext⟩ := matchParam_eq_some hparam
      exact ⟨.param hne hv (ih hnext).1, congrArg Nat.succ (ih hnext).2⟩

theorem Instance.isSome {tokens : List Token} {s : Bytes} (h : Instance tokens s) :
    (regexMatch tokens s).isSome := by
  induction h with
  | nil => rfl
  | lit h ih =>
    rw [regexMatch, if_pos rfl]
    exact ih
  | param hne hv h ih =>
    rw [regexMatch, Option.isSome_map]
    exact matchParam_isSome hne hv ih

/-- `regex_match` finds the texts of the pattern. -/
theorem regexMatch_isSome_iff {tokens : List Token} {s : Bytes} :
    (regexMatch tokens s).isSome ↔ Instance tokens s := by
  refine ⟨fun h => ?_, Instance.isSome⟩
  obtain ⟨groups, hgroups⟩ := Option.isSome_iff_exists.mp h
  exact (Instance.of_match hgroups).1

instance (tokens : List Token) (s : Bytes) : Decidable (Instance tokens s) :=
  decidable_of_iff _ regexMatch_isSome_iff

theorem Instance.lits {seg s : Bytes} {tokens : List Token}
    (h : Instance (seg.map .lit ++ tokens) s) : ∃ rest, s = seg ++ rest ∧ Instance tokens rest := by
  induction seg generalizing s with
  | nil => exact ⟨s, rfl, h⟩
  | cons b seg ih =>
    cases h with
    | lit h =>
      obtain ⟨rest, rfl, hrest⟩ := ih h
      exact ⟨rest, rfl, hrest⟩

theorem Instance.segment {seg s : Bytes} {tokens : List Token} (hseg : slash ∉ seg)
    (h : Instance (segTokens seg ++ tokens) s) :
    ∃ v rest, s = v ++ rest ∧ slash ∉ v ∧ seg.isEmpty = v.isEmpty ∧ Instance tokens rest := by
  rw [segTokens] at h
  cases hname : paramName seg with
  | none =>
    rw [hname] at h
    obtain ⟨rest, rfl, hrest⟩ := h.lits
    exact ⟨seg, rest, rfl, hseg, rfl, hrest⟩
  | some name =>
    rw [hname] at h
    cases h with
    | param hne hv h =>
      rename_i v rest
      refine ⟨v, rest, rfl, hv, ?_, h⟩
      rw [(eq_of_paramName hname).2, List.isEmpty_eq_false_iff.mpr hne]
      rfl

theorem Instance.tail {ps : List Bytes} {s : Bytes} (hps : ∀ p ∈ ps, slash ∉ p)
    (h : Instance (tailTokens ps) s) :
    ∃ rs : List Bytes, s = rs.flatMap (slash :: ·) ∧ (∀ r ∈ rs, slash ∉ r) ∧
      ps.map List.isEmpty = rs.map List.isEmpty := by
  induction ps generalizing s with
  | nil =>
    cases h
    exact ⟨[], rfl, nofun, rfl⟩
  | cons p ps ih =>
    cases h with
    | lit h =>
      obtain ⟨v, rest, rfl, hv, hempty, hrest⟩ := h.segment (hps p List.mem_cons_self)
      obtain ⟨rs, rfl, hrs, hsame⟩ := ih (fun q hq => hps q (List.mem_cons_of_mem _ hq)) hrest
      refine ⟨v :: rs, rfl, ?_, ?_⟩
      · intro r hr
        rcases List.mem_cons.mp hr with rfl | hr
        · exact hv
        · exact hrs r hr
      · rw [List.map_cons, List.map_cons, hempty, hsame]

/-- The texts of a plain pattern have their empty segments where the pattern has them. -/
theorem Instance.sameSlashes {pattern path : Bytes} {tokens : List Token} (hplain : Plain pattern)
    (hparse : parsePattern none pattern = some tokens) (h : Instance tokens path) :
    SameSlashes pattern path := by
  obtain ⟨p, ps, hsplit, hp, hps, heq⟩ := exists_splitOn slash pattern
  rw [Plain, hsplit] at hplain
  have htokens := parsePattern_plain (hplain p List.mem_cons_self)
    fun s hs => hplain s (List.mem_cons_of_mem _ hs)
  rw [← heq, hparse, Option.some.injEq] at htokens
  rw [htokens] at h
  obtain ⟨v, rest, rfl, hv, hempty, hrest⟩ := h.segment hp
  obtain ⟨rs, rfl, hrs, hsame⟩ := hrest.tail hps
  rw [SameSlashes, hsplit, splitOn_pieces hv hrs, List.map_cons, List.map_cons, hempty, hsame]

/-! ## Patterns that are not plain -/

/-- The names of the parameters in the VM. -/
theorem map_fst_matchSegments {ps rs : List Bytes} {params : Params}
    (h : matchSegments ps rs = some params) : params.map Prod.fst = ps.filterMap paramName := by
  induction ps generalizing rs params with
  | nil =>
    cases rs with
    | nil =>
      cases h
      rfl
    | cons r rs => cases h
  | cons p ps ih =>
    cases rs with
    | nil => cases h
    | cons r rs =>
      rw [matchSegments] at h
      cases hname : paramName p with
      | some name =>
        rw [hname] at h
        obtain ⟨params', hmatch, rfl⟩ := Option.map_eq_some_iff.mp h
        rw [List.map_cons, List.filterMap_cons_some hname, ih hmatch]
      | none =>
        rw [hname] at h
        simp only at h
        split at h
        · rw [List.filterMap_cons_none hname, ih h]
        · cases h

/-- A name that is being read becomes the beginning of a name. -/
theorem parsePattern_some {acc s : Bytes} {tokens : List Token}
    (h : parsePattern (some acc) s = some tokens) :
    ∃ name more, tokens = .param (acc ++ name) :: more := by
  induction s generalizing acc with
  | nil => cases h
  | cons b s ih =>
    rw [parsePattern] at h
    split at h
    · obtain ⟨more, -, rfl⟩ := Option.map_eq_some_iff.mp h
      exact ⟨[], more, by rw [List.append_nil]⟩
    · obtain ⟨name, more, rfl⟩ := ih h
      exact ⟨b :: name, more, by rw [List.append_assoc, List.singleton_append]⟩

/-- No name of the interpreter has a closing brace. -/
theorem rbrace_notMem_paramNames {st : Option Bytes} {s : Bytes} {tokens : List Token}
    (h : parsePattern st s = some tokens) (hst : ∀ acc, st = some acc → rbrace ∉ acc) :
    ∀ name ∈ paramNames tokens, rbrace ∉ name := by
  induction s generalizing st tokens with
  | nil =>
    cases st with
    | none =>
      cases h
      exact nofun
    | some acc => cases h
  | cons b s ih =>
    cases st with
    | none =>
      rw [parsePattern] at h
      split at h
      · refine ih h ?_
        rintro acc ⟨rfl⟩
        exact List.not_mem_nil
      · obtain ⟨more, hparse, rfl⟩ := Option.map_eq_some_iff.mp h
        rw [paramNames_lit]
        exact ih hparse nofun
    | some acc =>
      have hacc := hst acc rfl
      rw [parsePattern] at h
      split at h
      · obtain ⟨more, hparse, rfl⟩ := Option.map_eq_some_iff.mp h
        intro name hname
        rcases List.mem_cons.mp hname with rfl | hname
        · exact hacc
        · exact ih hparse nofun name hname
      · rename_i hb
        refine ih h ?_
        rintro acc' ⟨rfl⟩ hmem
        rcases List.mem_append.mp hmem with hmem | hmem
        · exact hacc hmem
        · exact hb (List.mem_singleton.mp hmem).symm

/-- When no name has a `/`, the braces are closed in the segments in which they are
opened. -/
theorem parsePattern_cut {st : Option Bytes} {seg rest : Bytes} {tokens : List Token}
    (h : parsePattern st (seg ++ slash :: rest) = some tokens)
    (hnames : ∀ name ∈ paramNames tokens, slash ∉ name) :
    ∃ t more, parsePattern st seg = some t ∧ parsePattern none rest = some more ∧
      tokens = t ++ .lit slash :: more := by
  induction seg generalizing st tokens with
  | nil =>
    cases st with
    | none =>
      obtain ⟨more, hparse, rfl⟩ := Option.map_eq_some_iff.mp h
      exact ⟨[], more, rfl, hparse, rfl⟩
    | some acc =>
      have hname : parsePattern (some (acc ++ [slash])) rest = some tokens := h
      obtain ⟨name, more, rfl⟩ := parsePattern_some hname
      refine absurd ?_ (hnames _ List.mem_cons_self)
      simp
  | cons b seg ih =>
    cases st with
    | none =>
      rw [List.cons_append, parsePattern] at h
      rw [parsePattern]
      split at h
      · rename_i hb
        rw [if_pos hb]
        exact ih h hnames
      · rename_i hb
        obtain ⟨tokens', hparse, rfl⟩ := Option.map_eq_some_iff.mp h
        obtain ⟨t, more, ht, hmore, rfl⟩ := ih hparse hnames
        exact ⟨.lit b :: t, more, by rw [if_neg hb, ht]; rfl, hmore, rfl⟩
    | some acc =>
      rw [List.cons_append, parsePattern] at h
      rw [parsePattern]
      split at h
      · rename_i hb
        obtain ⟨tokens', hparse, rfl⟩ := Option.map_eq_some_iff.mp h
        obtain ⟨t, more, ht, hmore, rfl⟩ := ih hparse fun name hname =>
          hnames name (List.mem_cons_of_mem _ hname)
        exact ⟨.param acc :: t, more, by rw [if_pos hb, ht]; rfl, hmore, rfl⟩
      · rename_i hb
        rw [if_neg hb]
        exact ih h hnames

theorem paramNames_ne_nil {seg : Bytes} {tokens : List Token}
    (h : parsePattern none seg = some tokens) (hbrace : lbrace ∈ seg) : paramNames tokens ≠ [] := by
  induction seg generalizing tokens with
  | nil => cases hbrace
  | cons b seg ih =>
    rw [parsePattern] at h
    split at h
    · obtain ⟨name, more, rfl⟩ := parsePattern_some h
      exact List.cons_ne_nil _ _
    · rename_i hb
      obtain ⟨more, hparse, rfl⟩ := Option.map_eq_some_iff.mp h
      rw [paramNames_lit]
      exact ih hparse ((List.mem_cons.mp hbrace).resolve_left (Ne.symm hb))

/-- A segment has at least as many parameters in the interpreter as in the VM, and more
when it is not plain. -/
theorem paramName_le {seg : Bytes} {tokens : List Token} (h : parsePattern none seg = some tokens)
    (hname : ∀ name, paramName seg = some name → rbrace ∉ name) :
    (paramName seg).toList.length ≤ (paramNames tokens).length ∧
      ((paramName seg).toList.length = (paramNames tokens).length → PlainSegment seg) := by
  cases hseg : paramName seg with
  | some name =>
    have hplain : PlainSegment seg :=
      Or.inr ⟨name, (eq_of_paramName hseg).1, hname name hseg, (eq_of_paramName hseg).2⟩
    rw [parsePattern_segment hplain, Option.some.injEq] at h
    subst h
    rw [paramNames_segTokens, hseg]
    exact ⟨Nat.le_refl _, fun _ => hplain⟩
  | none =>
    refine ⟨Nat.zero_le _, fun hlen => Or.inl fun hbrace => ?_⟩
    exact paramNames_ne_nil h hbrace (List.length_eq_zero_iff.mp hlen.symm)

theorem paramNames_le {seg : Bytes} {segs : List Bytes} {tokens : List Token}
    (h : parsePattern none (seg ++ segs.flatMap (slash :: ·)) = some tokens)
    (hslash : ∀ name ∈ paramNames tokens, slash ∉ name)
    (hname : ∀ s ∈ seg :: segs, ∀ name, paramName s = some name → rbrace ∉ name) :
    ((seg :: segs).filterMap paramName).length ≤ (paramNames tokens).length ∧
      (((seg :: segs).filterMap paramName).length = (paramNames tokens).length →
        ∀ s ∈ seg :: segs, PlainSegment s) := by
  have hcons : ∀ s l, ((s :: l).filterMap paramName).length =
      (paramName s).toList.length + (l.filterMap paramName).length := by
    intro s l
    rw [List.filterMap_cons]
    cases paramName s with
    | none => exact (Nat.zero_add _).symm
    | some name => exact Nat.add_comm _ _
  induction segs generalizing seg tokens with
  | nil =>
    rw [List.flatMap_nil, List.append_nil] at h
    have hle := paramName_le h (hname seg List.mem_cons_self)
    rw [hcons]
    exact ⟨hle.1, fun heq s hs => (List.mem_singleton.mp hs) ▸ hle.2 heq⟩
  | cons seg' segs ih =>
    rw [List.flatMap_cons, List.cons_append] at h
    obtain ⟨t, more, ht, hmore, rfl⟩ := parsePattern_cut h hslash
    rw [paramNames_append, paramNames_lit] at hslash ⊢
    have hle := paramName_le ht (hname seg List.mem_cons_self)
    have hle' := ih hmore (fun name hn => hslash name (List.mem_append_right _ hn))
      fun s hs => hname s (List.mem_cons_of_mem _ hs)
    rw [hcons, List.length_append]
    refine ⟨Nat.add_le_add hle.1 hle'.1, fun heq s hs => ?_⟩
    rcases List.mem_cons.mp hs with rfl | hs
    · exact hle.2 (by omega)
    · exact hle'.2 (by omega) s hs

/-- The engines have the same names for the parameters of plain patterns only. -/
theorem plain_of_names {pattern : Bytes} {tokens : List Token}
    (hparse : parsePattern none pattern = some tokens)
    (h : (split pattern).filterMap paramName = paramNames tokens) : Plain pattern := by
  obtain ⟨p, ps, hsplit, hp, hps, heq⟩ := exists_splitOn slash pattern
  have hall : (split pattern).filterMap paramName = (p :: ps).filterMap paramName := by
    rw [split, hsplit, List.filterMap_filter]
    refine List.filterMap_congr fun s _ => ?_
    cases s with
    | nil => rfl
    | cons b s => rfl
  have hmem : ∀ s ∈ p :: ps, ∀ name, paramName s = some name → name ∈ paramNames tokens := by
    intro s hs name hname
    rw [← h, hall]
    exact List.mem_filterMap.mpr ⟨s, hs, hname⟩
  rw [heq] at hparse
  have hslash : ∀ name ∈ paramNames tokens, slash ∉ name := by
    intro name hname hmem
    rw [← h, hall] at hname
    obtain ⟨s, hs, hname⟩ := List.mem_filterMap.mp hname
    have hfree : slash ∉ s := by
      rcases List.mem_cons.mp hs with rfl | hs
      · exact hp
      · exact hps s hs
    refine hfree ?_
    rw [(eq_of_paramName hname).2]
    exact List.mem_cons_of_mem _ (List.mem_append_left _ hmem)
  have hle := paramNames_le hparse hslash fun s hs name hname =>
    rbrace_notMem_paramNames hparse nofun name (hmem s hs name hname)
  rw [Plain, hsplit]
  refine hle.2 ?_
  rw [← hall, h]

end Route

end Look
