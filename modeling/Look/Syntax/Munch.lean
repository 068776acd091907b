/-
What `munch` reads does not depend on what is far behind it.

A token ends at the end of the text, at a blank and where a comment begins, whatever it could
have gone on with there (`Alike`).  A comment that goes to the end of its line ends where it
did when the next byte is the same, and what is closed by its own bytes ends there anyway.
-/
import Look.Syntax.Lexer
import Mathlib.Data.List.TakeWhile

namespace Look

namespace Syntax

/-- A byte that ends every token but a slash. -/
def isSep (c : UInt8) : Bool := isBlank c || c = lf || c = 0x23 || c = 0x2F

/-- No separator goes on with `p`. -/
theorem isSep_stops {p : UInt8 → Bool}
    (h : [0x20, 0x0D, 0x09, lf, 0x23, 0x2F].all fun c => !p c) (c : UInt8) (hc : isSep c) :
    p c = false := by
  simp only [isSep, isBlank, Bool.or_eq_true, decide_eq_true_eq] at hc
  simp only [List.all_cons, List.all_nil, Bool.and_eq_true, Bool.not_eq_true', and_true] at h
  obtain ⟨h1, h2, h3, h4, h5, h6⟩ := h
  obtain ((((rfl | rfl) | rfl) | rfl) | rfl) | rfl := hc <;> assumption

/-- The second text goes on like the first one, up to its end or a separator. -/
inductive Alike : Bytes → Bytes → Prop where
  | nil (r) : Alike r []
  | sep (r) {c} (t) (hc : isSep c) (hslash : c = 0x2F → r.head? = some 0x2F) : Alike r (c :: t)
  | cons (c) {r r'} (h : Alike r r') : Alike (c :: r) (c :: r')

theorem Alike.refl (r : Bytes) : Alike r r := by
  induction r with
  | nil => exact .nil []
  | cons c r ih => exact .cons c ih

theorem Alike.append (w : Bytes) {r r' : Bytes} (h : Alike r r') : Alike (w ++ r) (w ++ r') := by
  induction w with
  | nil => exact h
  | cons c w ih => exact .cons c ih

/-- What is a prefix of the second text, without a separator in it, is one of the first. -/
theorem Alike.isPrefixOf {r r' : Bytes} (h : Alike r r') {u : Bytes} (hu : ∀ c ∈ u, isSep c = false)
    (hpre : u.isPrefixOf r') : u.isPrefixOf r := by
  induction h generalizing u with
  | nil r =>
    cases u with
    | nil => rfl
    | cons a u => cases hpre
  | @sep r c t hc hslash =>
    cases u with
    | nil => rfl
    | cons a u =>
      simp only [List.isPrefixOf, Bool.and_eq_true, beq_iff_eq] at hpre
      have hnot := hu a List.mem_cons_self
      rw [hpre.1, hc] at hnot
      cases hnot
  | @cons c r r' h ih =>
    cases u with
    | nil => rfl
    | cons a u =>
      simp only [List.isPrefixOf, Bool.and_eq_true, beq_iff_eq] at hpre ⊢
      exact ⟨hpre.1, ih (fun b hb => hu b (List.mem_cons_of_mem _ hb)) hpre.2⟩

/-- A run of bytes that ends in the first text ends in the second. -/
theorem Alike.head {r r' : Bytes} (h : Alike r r') {p : UInt8 → Bool}
    (hsep : ∀ c, isSep c → p c = false) (hr : ∀ c ∈ r.head?, p c = false) :
    ∀ c ∈ r'.head?, p c = false := by
  cases h with
  | nil => exact fun c hc => nomatch hc
  | @sep _ c t hc hslash =>
    rintro b ⟨rfl⟩
    exact hsep _ hc
  | cons c h =>
    rintro b ⟨rfl⟩
    exact hr _ rfl

theorem notMem_head?_dropWhile {α : Type} (p : α → Bool) (s : List α) :
    ∀ c ∈ (s.dropWhile p).head?, p c = false := by
  intro c hc
  have hnot := List.head?_dropWhile_not p s
  rw [hc] at hnot
  exact hnot

/-- A run of bytes with `p` is cut at the same place. -/
theorem span_change {α : Type} {p : α → Bool} (s : List α) {r' : List α}
    (hr' : ∀ c ∈ r'.head?, p c = false) :
    (s.takeWhile p ++ r').takeWhile p = s.takeWhile p ∧ (s.takeWhile p ++ r').dropWhile p = r' := by
  have hall : ∀ c ∈ s.takeWhile p, p c = true := fun c hc => List.mem_takeWhile_imp hc
  rw [List.takeWhile_append_of_pos hall, List.dropWhile_append_of_pos hall]
  cases r' with
  | nil => exact ⟨List.append_nil _, rfl⟩
  | cons c r' =>
    have hc : ¬p c = true := Bool.eq_false_iff.mp (hr' c rfl)
    rw [List.takeWhile_cons_of_neg hc, List.dropWhile_cons_of_neg hc, List.append_nil]
    exact ⟨rfl, rfl⟩

theorem span_alike {p : UInt8 → Bool} (hsep : ∀ c, isSep c → p c = false) {s r' : Bytes}
    (h : Alike (s.dropWhile p) r') :
    (s.takeWhile p ++ r').takeWhile p = s.takeWhile p ∧ (s.takeWhile p ++ r').dropWhile p = r' :=
  span_change s (h.head hsep (notMem_head?_dropWhile p s))

/-! ## The pieces -/

/-- What may stand behind a piece instead. -/
def Scan.Fits (scan : Scan) (r' : Bytes) : Prop :=
  match scan.piece with
  | .token .. => Alike scan.rest r'
  | .comment => scan.rest.head?.all (· = lf) → r'.head? = scan.rest.head?
  | _ => True

/-- A scanner that has read `scan` reads as much when something else that fits is behind it. -/
def Reads (f : Bytes → Except LexError Scan) (s : Bytes) (scan : Scan) : Prop :=
  s = scan.text ++ scan.rest ∧
    ∀ r', scan.Fits r' → f (scan.text ++ r') = .ok { scan with rest := r' }

theorem operators_noSep {c : UInt8} {longer : List (Bytes × TokenType)} {short : TokenType}
    (h : AssocList.lookup c operators = some (longer, short)) :
    ∀ p ∈ longer, ∀ b ∈ p.1, isSep b = false := by
  have hall : operators.all (fun entry => entry.2.1.all fun p => p.1.all fun b => !isSep b) := by
    decide
  intro p hp b hb
  have hentry := List.all_eq_true.mp hall _ (AssocList.mem_of_lookup h)
  simpa using List.all_eq_true.mp (List.all_eq_true.mp hentry p hp) b hb

theorem operator_none {longer : List (Bytes × TokenType)} {short : TokenType} {s : Bytes}
    (h : longer.find? (fun p => p.1.isPrefixOf s) = none) :
    operator longer short s = ⟨.token short none false, [], 0, s⟩ := by
  unfold operator
  split
  · rename_i hfind
    cases hfind.symm.trans h
  · rfl

theorem operator_some {longer : List (Bytes × TokenType)} {short type : TokenType}
    {s suffix : Bytes} (h : longer.find? (fun p => p.1.isPrefixOf s) = some (suffix, type)) :
    operator longer short s = ⟨.token type none false, suffix, 0, s.drop suffix.length⟩ := by
  unfold operator
  split
  · rename_i hfind
    cases hfind.symm.trans h
    rfl
  · rename_i hfind
    cases hfind.symm.trans h

theorem operator_reads {longer : List (Bytes × TokenType)} {short : TokenType}
    (hsep : ∀ p ∈ longer, ∀ b ∈ p.1, isSep b = false) (s : Bytes) :
    Reads (fun s => pure (operator longer short s)) s (operator longer short s) := by
  cases hfind : longer.find? fun p => p.1.isPrefixOf s with
  | none =>
    rw [operator_none hfind]
    rw [List.find?_eq_none] at hfind
    refine ⟨rfl, fun r' (hr' : Alike s r') => ?_⟩
    have hnone : longer.find? (fun p => p.1.isPrefixOf r') = none := by
      rw [List.find?_eq_none]
      exact fun p hp hpre => hfind p hp (hr'.isPrefixOf (hsep p hp) hpre)
    change pure (operator longer short r') = _
    rw [operator_none hnone]
    rfl
  | some p =>
    obtain ⟨suffix, type⟩ := p
    rw [operator_some hfind]
    obtain ⟨hpre, before, behind, hlonger, hbefore⟩ := List.find?_eq_some_iff_append.mp hfind
    obtain ⟨t, rfl⟩ := List.isPrefixOf_iff_prefix.mp hpre
    dsimp only
    rw [List.drop_left]
    refine ⟨rfl, fun r' (hr' : Alike t r') => ?_⟩
    have hsome : longer.find? (fun p => p.1.isPrefixOf (suffix ++ r')) = some (suffix, type) := by
      rw [List.find?_eq_some_iff_append]
      refine ⟨List.isPrefixOf_iff_prefix.mpr (List.prefix_append _ _), before, behind, hlonger, ?_⟩
      intro p hp
      have hnot := hbefore p hp
      rw [Bool.not_eq_true'] at hnot ⊢
      rw [Bool.eq_false_iff] at hnot ⊢
      have hmem : p ∈ longer := hlonger ▸ List.mem_append_left _ hp
      exact fun hpre => hnot ((hr'.append suffix).isPrefixOf (hsep p hmem) hpre)
    change pure (operator longer short (suffix ++ r')) = _
    rw [operator_some hsome, List.drop_left]
    rfl

theorem lineComment_reads (s : Bytes) :
    Reads (fun s => pure (lineComment s)) s (lineComment s) := by
  refine ⟨List.takeWhile_append_dropWhile.symm, fun r' hr' => ?_⟩
  obtain ⟨htake, hdrop⟩ := @span_change _ (fun c => decide (c ≠ lf)) s r' (by
    have hstop := notMem_head?_dropWhile (· ≠ lf) s
    have hfits : r'.head? = (s.dropWhile (· ≠ lf)).head? := hr' (by
      rw [Option.all_eq_true]
      intro c hc
      simpa using hstop c hc)
    rw [hfits]
    exact hstop)
  change pure (lineComment _) = _
  unfold lineComment
  dsimp only
  rw [htake, hdrop]
  rfl

theorem slash_block (s : Bytes) : slash (0x2A :: s) =
    match breakOn [0x2A, 0x2F] s with
    | some (body, rest) => pure ⟨.comment, 0x2A :: (body ++ [0x2A, 0x2F]), body.count lf, rest⟩
    | none => throw .blockComment := rfl

theorem slash_reads {s : Bytes} {scan : Scan} (h : slash s = .ok scan) : Reads slash s scan := by
  unfold slash at h
  split at h
  · cases h
    exact ⟨rfl, fun r' _ => rfl⟩
  · rename_i t
    cases h
    obtain ⟨htext, hfits⟩ := lineComment_reads (0x2F :: t)
    refine ⟨htext, fun r' hr' => ?_⟩
    have hread := hfits r' hr'
    have hslash : (lineComment (0x2F :: t)).text ++ r' =
        0x2F :: (t.takeWhile (· ≠ lf) ++ r') := by
      rw [lineComment]
      rfl
    rw [hslash] at hread ⊢
    exact hread
  · rename_i t
    split at h
    · rename_i body rest hbody
      cases h
      refine ⟨by rw [breakOn_eq hbody]; simp, fun r' _ => ?_⟩
      have hmore := breakOn_more (by simp) r' hbody
      change slash (0x2A :: (body ++ [0x2A, 0x2F] ++ r')) = _
      rw [slash_block, hmore]
      rfl
    · cases h
  · rename_i heq hline hblock
    cases h
    refine ⟨rfl, fun r' (hr' : Alike s r') => ?_⟩
    change slash r' = _
    cases hr' with
    | nil => rfl
    | @sep _ c t hc hslash =>
      have hne : c ≠ 0x2F := by
        rintro rfl
        obtain ⟨t', ht'⟩ := List.head?_eq_some_iff.mp (hslash rfl)
        exact hline t' ht'
      have hnot : c ≠ 0x3D ∧ c ≠ 0x2A := by
        constructor <;> (rintro rfl; revert hc; decide)
      rw [slash]
      · rfl
      · rintro t' ⟨rfl⟩
        exact hnot.1 rfl
      · rintro t' ⟨rfl⟩
        exact hne rfl
      · rintro t' ⟨rfl⟩
        exact hnot.2 rfl
    | @cons c r r' hrest =>
      rw [slash]
      · rfl
      · rintro t' ⟨rfl⟩
        exact heq r rfl
      · rintro t' ⟨rfl⟩
        exact hline r rfl
      · rintro t' ⟨rfl⟩
        exact hblock r rfl

theorem closing_reads {quote : UInt8} (hquote : quote ≠ 0x5C) {s x t : Bytes}
    (h : closing quote s = some (x, t)) :
    s = x ++ quote :: t ∧ ∀ r', closing quote (x ++ quote :: r') = some (x, r') := by
  fun_induction closing quote s generalizing x t with
  | case1 => cases h
  | case2 e s ih =>
    obtain ⟨⟨x', t'⟩, hrest, heq⟩ := Option.map_eq_some_iff.mp h
    cases heq
    obtain ⟨htext, hmore⟩ := ih hrest
    refine ⟨by rw [htext]; rfl, fun r' => ?_⟩
    rw [List.cons_append, List.cons_append, closing, hmore r']
    rfl
  | case3 s =>
    cases h
    refine ⟨rfl, fun r' => ?_⟩
    rw [List.nil_append, closing, if_pos rfl]
    exact fun _ _ hescape => absurd hescape hquote
  | case4 c s hescape hne ih =>
    obtain ⟨⟨x', t'⟩, hrest, heq⟩ := Option.map_eq_some_iff.mp h
    cases heq
    obtain ⟨htext, hmore⟩ := ih hrest
    -- a backslash without a byte behind it is not followed by a quote
    have hplain : c ≠ 0x5C := by
      rintro rfl
      cases s with
      | nil => cases hrest
      | cons e s => exact hescape e s rfl rfl
    refine ⟨by rw [htext]; rfl, fun r' => ?_⟩
    rw [List.cons_append, closing, if_neg hne, hmore r']
    · rfl
    · exact fun _ _ hc => absurd hc hplain

theorem string_reads {quote : UInt8} (hquote : quote ≠ 0x5C) {s : Bytes} {scan : Scan}
    (h : string quote s = .ok scan) : Reads (string quote) s scan := by
  unfold string at h
  split at h
  · rename_i body rest hclosing
    cases h
    obtain ⟨htext, hmore⟩ := closing_reads hquote hclosing
    refine ⟨by rw [htext]; simp, fun r' _ => ?_⟩
    have hbody : body ++ [quote] ++ r' = body ++ quote :: r' := by simp
    dsimp only
    rw [hbody, string, hmore r']
    rfl
  · cases h

theorem rawString_reads {s : Bytes} {scan : Scan} (h : rawString s = .ok scan) :
    Reads rawString s scan := by
  unfold rawString at h
  split at h
  · rename_i body rest hbreak
    cases h
    obtain ⟨htext, hbody⟩ := breakOn_single_eq hbreak
    refine ⟨by rw [htext]; simp, fun r' _ => ?_⟩
    have hmore : body ++ [0x60] ++ r' = body ++ 0x60 :: r' := by simp
    dsimp only
    rw [hmore, rawString, breakOn_single hbody]
    rfl
  · cases h

theorem identifier_reads (c : UInt8) (s : Bytes) :
    Reads (fun s => pure (identifier c s)) s (identifier c s) := by
  refine ⟨List.takeWhile_append_dropWhile.symm, fun r' hr' => ?_⟩
  obtain ⟨htake, hdrop⟩ := span_alike (p := isName) (isSep_stops (by decide)) hr'
  change pure (identifier c _) = _
  unfold identifier
  dsimp only
  rw [htake, hdrop]
  rfl

/-! ### Numbers -/

/-- A scanner that returns what it reads and what is behind it. -/
def Cuts (f : Bytes → Bytes × Bytes) : Prop :=
  ∀ s, s = (f s).1 ++ (f s).2 ∧ ∀ r', Alike (f s).2 r' → f ((f s).1 ++ r') = ((f s).1, r')

theorem isDigit_notSep {c : UInt8} (h : isDigit c) : isSep c = false := by
  rw [Bool.eq_false_iff]
  intro hc
  rw [isSep_stops (p := isDigit) (by decide) c hc] at h
  cases h

/-- What the second text begins with, without separators, the first text begins with. -/
theorem Alike.isPrefix {u r r' : Bytes} (h : Alike r r') (hu : ∀ c ∈ u, isSep c = false)
    (hpre : u <+: r') : u <+: r :=
  List.isPrefixOf_iff_prefix.mp (h.isPrefixOf hu (List.isPrefixOf_iff_prefix.mpr hpre))

theorem takeWhile_digit {p : UInt8 → Bool} {d : UInt8} (hd : p d) (rest r' : Bytes) :
    (d :: rest).takeWhile p ++ r' = d :: (rest.takeWhile p ++ r') := by
  rw [List.takeWhile_cons_of_pos hd, List.cons_append]

theorem fraction_digits {d : UInt8} (hd : isDigit d) (rest : Bytes) :
    fraction (0x2E :: d :: rest) =
      (0x2E :: (d :: rest).takeWhile isGrouped, (d :: rest).dropWhile isGrouped) := by
  rw [fraction, if_pos hd]

theorem fraction_none {s : Bytes} (h : ∀ d, isDigit d → ¬[0x2E, d] <+: s) : fraction s = ([], s) := by
  unfold fraction
  split
  · rename_i d rest
    rw [if_neg fun hd => h d hd ⟨rest, rfl⟩]
  · rfl

theorem fraction_cuts : Cuts fraction := by
  intro s
  by_cases h : ∃ d, isDigit d ∧ [0x2E, d] <+: s
  · obtain ⟨d, hd, rest, rfl⟩ := h
    have hgrouped : isGrouped d := by rw [isGrouped, hd, Bool.true_or]
    have heq := fraction_digits hd rest
    change fraction ([0x2E, d] ++ rest) = _ at heq
    have hcut := List.takeWhile_append_dropWhile (p := isGrouped) (l := d :: rest)
    rw [heq]
    refine ⟨congrArg (0x2E :: ·) hcut.symm, fun r' hr' => ?_⟩
    obtain ⟨htake, hdrop⟩ := span_alike (p := isGrouped) (isSep_stops (by decide)) hr'
    rw [takeWhile_digit hgrouped] at htake hdrop
    rw [List.cons_append, takeWhile_digit hgrouped, fraction_digits hd, htake, hdrop]
  · have hnone : ∀ d, isDigit d → ¬[0x2E, d] <+: s := fun d hd hpre => h ⟨d, hd, hpre⟩
    rw [fraction_none hnone]
    refine ⟨rfl, fun r' hr' => fraction_none fun d hd hpre => hnone d hd (hr'.isPrefix ?_ hpre)⟩
    have hpoint : isSep 0x2E = false := by decide
    simp [isDigit_notSep hd, hpoint]

/-- The marks of an exponent and its sign. -/
def isScale (e : UInt8) : Bool := e = 0x65 || e = 0x45

theorem exponent_digit {e d : UInt8} (he : isScale e) (hd : isDigit d) (rest : Bytes) :
    exponent (e :: d :: rest) =
      (e :: (d :: rest).takeWhile isDigit, (d :: rest).dropWhile isDigit) := by
  rw [exponent, if_pos (by simpa [isScale] using he), if_pos hd]

theorem exponent_sign {e d d' : UInt8} (he : isScale e) (hd : d = 0x2B ∨ d = 0x2D) (hd' : isDigit d')
    (rest : Bytes) : exponent (e :: d :: d' :: rest) =
      (e :: d :: (d' :: rest).takeWhile isDigit, (d' :: rest).dropWhile isDigit) := by
  have hnot : ¬isDigit d = true := by rcases hd with rfl | rfl <;> decide
  rw [exponent, if_pos (by simpa [isScale] using he), if_neg hnot, if_pos ⟨hd, by simpa using hd'⟩]

theorem exponent_none {s : Bytes} (h : ∀ e d, isScale e → isDigit d → ¬[e, d] <+: s)
    (h' : ∀ e d d', isScale e → d = 0x2B ∨ d = 0x2D → isDigit d' → ¬[e, d, d'] <+: s) :
    exponent s = ([], s) := by
  unfold exponent
  split
  · rename_i e d rest
    split
    · rename_i he
      have hscale : isScale e := by simpa [isScale] using he
      rw [if_neg fun hd => h e d hscale hd ⟨rest, rfl⟩, if_neg]
      rintro ⟨hd, hany⟩
      cases rest with
      | nil => cases hany
      | cons d' rest => exact h' e d d' hscale hd (by simpa using hany) ⟨rest, rfl⟩
    · rfl
  · rfl

theorem isScale_notSep {e : UInt8} (he : isScale e) : isSep e = false := by
  simp only [isScale, Bool.or_eq_true, decide_eq_true_eq] at he
  rcases he with rfl | rfl <;> decide

theorem exponent_cuts : Cuts exponent := by
  intro s
  by_cases h : ∃ e d, isScale e ∧ isDigit d ∧ [e, d] <+: s
  · obtain ⟨e, d, he, hd, rest, rfl⟩ := h
    have heq := exponent_digit he hd rest
    change exponent ([e, d] ++ rest) = _ at heq
    have hcut := List.takeWhile_append_dropWhile (p := isDigit) (l := d :: rest)
    rw [heq]
    refine ⟨congrArg (e :: ·) hcut.symm, fun r' hr' => ?_⟩
    obtain ⟨htake, hdrop⟩ := span_alike (p := isDigit) (isSep_stops (by decide)) hr'
    rw [takeWhile_digit hd] at htake hdrop
    rw [List.cons_append, takeWhile_digit hd, exponent_digit he hd, htake, hdrop]
  · by_cases h' : ∃ e d d', isScale e ∧ (d = 0x2B ∨ d = 0x2D) ∧ isDigit d' ∧ [e, d, d'] <+: s
    · obtain ⟨e, d, d', he, hd, hd', rest, rfl⟩ := h'
      have heq := exponent_sign he hd hd' rest
      change exponent ([e, d, d'] ++ rest) = _ at heq
      have hcut := List.takeWhile_append_dropWhile (p := isDigit) (l := d' :: rest)
      rw [heq]
      refine ⟨congrArg (fun t => e :: d :: t) hcut.symm, fun r' hr' => ?_⟩
      obtain ⟨htake, hdrop⟩ := span_alike (p := isDigit) (isSep_stops (by decide)) hr'
      rw [takeWhile_digit hd'] at htake hdrop
      rw [List.cons_append, List.cons_append, takeWhile_digit hd', exponent_sign he hd hd', htake,
        hdrop]
    · have hnone : ∀ e d, isScale e → isDigit d → ¬[e, d] <+: s :=
        fun e d he hd hpre => h ⟨e, d, he, hd, hpre⟩
      have hnone' : ∀ e d d', isScale e → d = 0x2B ∨ d = 0x2D → isDigit d' → ¬[e, d, d'] <+: s :=
        fun e d d' he hd hd' hpre => h' ⟨e, d, d', he, hd, hd', hpre⟩
      rw [exponent_none hnone hnone']
      refine ⟨rfl, fun r' hr' => exponent_none ?_ ?_⟩
      · intro e d he hd hpre
        refine hnone e d he hd (hr'.isPrefix ?_ hpre)
        simp [isScale_notSep he, isDigit_notSep hd]
      · intro e d d' he hd hd' hpre
        refine hnone' e d d' he hd hd' (hr'.isPrefix ?_ hpre)
        have hsign : isSep d = false := by rcases hd with rfl | rfl <;> decide
        simp [isScale_notSep he, hsign, isDigit_notSep hd']

theorem decimal_cuts (s : Bytes) :
    s = (number.decimal s).2.1 ++ (number.decimal s).2.2 ∧
      ∀ r', Alike (number.decimal s).2.2 r' →
        number.decimal ((number.decimal s).2.1 ++ r') =
          ((number.decimal s).1, (number.decimal s).2.1, r') := by
  obtain ⟨hfraction, hfits⟩ := fraction_cuts (s.dropWhile isGrouped)
  obtain ⟨hexponent, hfits'⟩ := exponent_cuts (fraction (s.dropWhile isGrouped)).2
  have hcut := List.takeWhile_append_dropWhile (p := isGrouped) (l := s)
  unfold number.decimal
  rcases hF : fraction (s.dropWhile isGrouped) with ⟨F, R⟩
  rw [hF] at hfraction hfits hexponent hfits'
  dsimp only at hfraction hfits hexponent hfits' ⊢
  rcases hE : exponent R with ⟨E, R'⟩
  rw [hE] at hexponent hfits'
  dsimp only at hexponent hfits' ⊢
  refine ⟨?_, fun r' hr' => ?_⟩
  · rw [List.append_assoc, List.append_assoc, ← hexponent, ← hfraction, hcut]
  · have hbehind : Alike R (E ++ r') := by
      rw [hexponent]
      exact hr'.append E
    have hwhole : Alike (s.dropWhile isGrouped) (F ++ (E ++ r')) := by
      rw [hfraction]
      exact hbehind.append F
    obtain ⟨htake, hdrop⟩ := span_alike (p := isGrouped) (isSep_stops (by decide)) hwhole
    rw [List.append_assoc, List.append_assoc, htake, hdrop, hfits _ hbehind]
    dsimp only
    rw [hfits' r' hr']

/-- The second byte of a number with another base. -/
def isBase (x : UInt8) : Bool := x = 0x78 || x = 0x58 || x = 0x62 || x = 0x42

theorem number_decimal {s : Bytes} (h : ∀ x, isBase x → ¬[0x30, x] <+: s) :
    number s = number.decimal s := by
  unfold number
  split
  · rename_i x digits
    have hnot : ¬isBase x = true := fun hx => h x hx ⟨digits, rfl⟩
    simp only [isBase, Bool.or_eq_true, decide_eq_true_eq, not_or] at hnot
    rw [if_neg (not_or.mpr ⟨hnot.1.1.1, hnot.1.1.2⟩), if_neg (not_or.mpr ⟨hnot.1.2, hnot.2⟩)]
  · rfl

/-- The digits of a base. -/
def baseDigit (x c : UInt8) : Bool :=
  if x = 0x78 ∨ x = 0x58 then isXDigit c || c = 0x5F else c = 0x30 || c = 0x31 || c = 0x5F

theorem number_base {x : UInt8} (hx : isBase x) (digits : Bytes) :
    number (0x30 :: x :: digits) =
      (.number, 0x30 :: x :: digits.takeWhile (baseDigit x), digits.dropWhile (baseDigit x)) := by
  simp only [isBase, Bool.or_eq_true, decide_eq_true_eq] at hx
  obtain ((rfl | rfl) | rfl) | rfl := hx <;> rfl

theorem number_cuts (s : Bytes) :
    s = (number s).2.1 ++ (number s).2.2 ∧
      ∀ r', Alike (number s).2.2 r' →
        number ((number s).2.1 ++ r') = ((number s).1, (number s).2.1, r') := by
  by_cases h : ∃ x, isBase x ∧ [0x30, x] <+: s
  · obtain ⟨x, hx, digits, rfl⟩ := h
    have heq := number_base hx digits
    change number ([0x30, x] ++ digits) = _ at heq
    have hcut := List.takeWhile_append_dropWhile (p := baseDigit x) (l := digits)
    rw [heq]
    refine ⟨congrArg (fun t => 0x30 :: x :: t) hcut.symm, fun r' hr' => ?_⟩
    have hsep : ∀ c, isSep c → baseDigit x c = false := by
      intro c hc
      unfold baseDigit
      split
      · exact isSep_stops (p := fun c => isXDigit c || c = 0x5F) (by decide) c hc
      · exact isSep_stops (p := fun c => c = 0x30 || c = 0x31 || c = 0x5F) (by decide) c hc
    obtain ⟨htake, hdrop⟩ := span_alike hsep hr'
    rw [List.cons_append, List.cons_append, number_base hx, htake, hdrop]
  · have hnone : ∀ x, isBase x → ¬[0x30, x] <+: s := fun x hx hpre => h ⟨x, hx, hpre⟩
    rw [number_decimal hnone]
    obtain ⟨htext, hfits⟩ := decimal_cuts s
    refine ⟨htext, fun r' hr' => ?_⟩
    rw [number_decimal, hfits r' hr']
    intro x hx hpre
    have halike : Alike s ((number.decimal s).2.1 ++ r') := by
      have happend := hr'.append (number.decimal s).2.1
      rwa [← htext] at happend
    refine hnone x hx (halike.isPrefix ?_ hpre)
    simp only [isBase, Bool.or_eq_true, decide_eq_true_eq] at hx
    refine List.forall_mem_cons.mpr ⟨rfl, List.forall_mem_singleton.mpr ?_⟩
    obtain ((rfl | rfl) | rfl) | rfl := hx <;> rfl

theorem number_head {c : UInt8} (hc : isDigit c) (s : Bytes) :
    ∃ text, (number (c :: s)).2.1 = c :: text := by
  have hgrouped : isGrouped c := by rw [isGrouped, hc, Bool.true_or]
  by_cases h : ∃ x, isBase x ∧ [0x30, x] <+: c :: s
  · obtain ⟨x, hx, digits, heq⟩ := h
    rw [← heq]
    change ∃ text, (number (0x30 :: x :: digits)).2.1 = c :: text
    rw [number_base hx, (List.cons.inj heq).1]
    exact ⟨_, rfl⟩
  · rw [number_decimal fun x hx hpre => h ⟨x, hx, hpre⟩]
    unfold number.decimal
    dsimp only
    rw [List.takeWhile_cons_of_pos hgrouped]
    exact ⟨_, rfl⟩

theorem number_reads {c : UInt8} (hc : isDigit c) (s : Bytes) :
    Reads (fun s => pure ⟨.token (number (c :: s)).1 (some (number (c :: s)).2.1) false,
        (number (c :: s)).2.1.drop 1, 0, (number (c :: s)).2.2⟩) s
      ⟨.token (number (c :: s)).1 (some (number (c :: s)).2.1) false,
        (number (c :: s)).2.1.drop 1, 0, (number (c :: s)).2.2⟩ := by
  obtain ⟨htext, hfits⟩ := number_cuts (c :: s)
  obtain ⟨text, hhead⟩ := number_head hc s
  rw [hhead] at htext hfits
  refine ⟨?_, fun r' hr' => ?_⟩
  · rw [hhead]
    exact (List.cons.inj htext).2
  · have hread := hfits r' hr'
    dsimp only
    rw [hhead]
    rw [List.cons_append] at hread
    rw [List.drop_one, List.tail_cons, hread]
    rfl

/-! ### Together -/

theorem munch_reads {c : UInt8} {s : Bytes} {scan : Scan} (h : munch c s = .ok scan) :
    Reads (munch c) s scan := by
  unfold munch at h ⊢
  cases hop : AssocList.lookup c operators with
  | some choice =>
    rw [hop] at h
    cases h
    exact operator_reads (operators_noSep hop) s
  | none =>
    rw [hop] at h
    dsimp only at h ⊢
    by_cases h1 : c = 0x2F
    · simp only [if_pos h1] at h ⊢
      exact slash_reads h
    by_cases h2 : c = 0x60
    · simp only [if_neg h1, if_pos h2] at h ⊢
      exact rawString_reads h
    by_cases h3 : isBlank c
    · simp only [if_neg h1, if_neg h2, if_pos h3] at h ⊢
      cases h
      exact ⟨rfl, fun r' _ => rfl⟩
    by_cases h4 : c = lf
    · simp only [if_neg h1, if_neg h2, if_neg h3, if_pos h4] at h ⊢
      cases h
      exact ⟨rfl, fun r' _ => rfl⟩
    by_cases h5 : c = 0x23
    · simp only [if_neg h1, if_neg h2, if_neg h3, if_neg h4, if_pos h5] at h ⊢
      cases h
      exact lineComment_reads s
    by_cases h6 : c = 0x22 ∨ c = 0x27
    · simp only [if_neg h1, if_neg h2, if_neg h3, if_neg h4, if_neg h5, if_pos h6] at h ⊢
      refine string_reads ?_ h
      rcases h6 with rfl | rfl <;> decide
    by_cases h7 : c = 0x24
    · simp only [if_neg h1, if_neg h2, if_neg h3, if_neg h4, if_neg h5, if_neg h6, if_pos h7] at h ⊢
      cases h
      exact identifier_reads c s
    by_cases h8 : isDigit c
    · simp only [if_neg h1, if_neg h2, if_neg h3, if_neg h4, if_neg h5, if_neg h6, if_neg h7,
        if_pos h8] at h ⊢
      cases h
      exact number_reads h8 s
    by_cases h9 : isAlpha c ∨ c = 0x5F
    · simp only [if_neg h1, if_neg h2, if_neg h3, if_neg h4, if_neg h5, if_neg h6, if_neg h7,
        if_neg h8, if_pos h9] at h ⊢
      cases h
      exact identifier_reads c s
    · simp only [if_neg h1, if_neg h2, if_neg h3, if_neg h4, if_neg h5, if_neg h6, if_neg h7,
        if_neg h8, if_neg h9] at h
      cases h

/-- The text of a piece and what is behind it are the text. -/
theorem munch_text {c : UInt8} {s : Bytes} {scan : Scan} (h : munch c s = .ok scan) :
    s = scan.text ++ scan.rest := (munch_reads h).1

theorem munch_change {c : UInt8} {s r' : Bytes} {scan : Scan} (h : munch c s = .ok scan)
    (hr' : scan.Fits r') : munch c (scan.text ++ r') = .ok { scan with rest := r' } :=
  (munch_reads h).2 r' hr'

theorem munch_lf (s : Bytes) : munch lf s = .ok ⟨.newline, [], 0, s⟩ := rfl

theorem munch_blank {c : UInt8} (hc : isBlank c) (s : Bytes) :
    munch c s = .ok ⟨.blank, [], 0, s⟩ := by
  simp only [isBlank, Bool.or_eq_true, decide_eq_true_eq] at hc
  obtain (rfl | rfl) | rfl := hc <;> rfl

/-- The bytes that a piece begins with. -/
def Piece.Begins (c : UInt8) : Piece → Prop
  | .token .. => True
  | .blank => isBlank c
  | .newline => c = lf
  | .comment => c = 0x2F ∨ c = 0x23

theorem slash_begins {s : Bytes} {scan : Scan} (h : slash s = .ok scan) : scan.piece.Begins 0x2F := by
  unfold slash at h
  split at h
  · cases h; trivial
  · cases h; exact .inl rfl
  · split at h <;> cases h; exact .inl rfl
  · cases h; trivial

theorem munch_begins {c : UInt8} {s : Bytes} {scan : Scan} (h : munch c s = .ok scan) :
    scan.piece.Begins c := by
  unfold munch at h
  split at h
  · cases h
    unfold operator
    split <;> trivial
  · split at h
    · rename_i hc
      rw [hc]
      exact slash_begins h
    split at h
    · unfold rawString at h
      split at h <;> cases h
      trivial
    split at h
    · rename_i hblank
      cases h
      exact hblank
    split at h
    · rename_i hlf
      cases h
      exact hlf
    split at h
    · rename_i hhash
      cases h
      exact .inr hhash
    split at h
    · unfold string at h
      split at h <;> cases h
      trivial
    split at h
    · cases h
      trivial
    split at h
    · cases h
      trivial
    split at h
    · cases h
      trivial
    · cases h

/-- Only a token does not begin with a separator. -/
theorem Piece.Begins.isSep {c : UInt8} {piece : Piece} (h : piece.Begins c)
    (hp : ∀ type literal raw, piece ≠ .token type literal raw) : isSep c := by
  unfold Syntax.isSep
  cases piece with
  | token type literal raw => exact absurd rfl (hp type literal raw)
  | blank =>
    have hblank : isBlank c = true := h
    rw [hblank]
    rfl
  | newline =>
    obtain rfl : c = lf := h
    rfl
  | comment => obtain rfl | rfl := h <;> rfl

end Syntax

end Look
